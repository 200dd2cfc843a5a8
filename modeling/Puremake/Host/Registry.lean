import Puremake.Action.Objects
import Puremake.Host.Cmdline
import Puremake.Bake.Targets

/-!
# The actions and options that are registered

`newaction` and `newoption` put an action or an option into a table under its trigger, where a
later one replaces an earlier one. The words of the command line are compared with what has been
registered: an option has to be there, with a value if it needs one, and the value has to be one
of those that it allows.
-/

namespace Puremake

open FoldRun

/-- An option, as `newoption` is given it. -/
structure OptionSpec where
  trigger : Option Str
  value : Option Str
  description : Option Str
  allowed : Option (List (Str × Str))
  deriving DecidableEq, Repr

/-- The tools that an action can use, by the options that choose them. -/
structure ToolTable where
  entries : List (Str × List Str)
  nodup : (entries.map Prod.fst).Nodup

/-- An action, as `newaction` is given it: of `onsolution`, `onproject` and `execute` it says
whether they are there. -/
structure ActionSpec where
  trigger : Option Str
  shortname : Option Str
  description : Option Str
  os : Option Str
  valid_kinds : Option (List Str)
  valid_languages : Option (List Str)
  valid_tools : Option ToolTable
  onsolution : Bool
  onproject : Bool
  execute : Bool
  oncheckproject : Option (Workspace → BakedProject → Except Str Unit)

/-- The field that `premake.option.add` and `premake.action.add` find missing, which is the last
one that they look for. -/
def missing (description trigger : Option Str) : Option Str :=
  [("description".toList, description), ("trigger".toList, trigger)].foldl
    (fun missing (field, value) => if value.isNone then some field else missing) none

/-- What `premake.option.add` and `premake.action.add` have in common. -/
def register {α : Type} (what : Str) (description trigger : Option Str) (x : α)
    (list : List (Str × α)) : Except Str (List (Str × α)) :=
  match missing description trigger, trigger with
  | none, some trigger => .ok (assign trigger x list)
  | field, _ => .error (what ++ " needs a ".toList ++ field.getD [])

def OptionSpec.add (opt : OptionSpec) (list : List (Str × OptionSpec)) :
    Except Str (List (Str × OptionSpec)) :=
  register "option".toList opt.description opt.trigger opt list

def ActionSpec.add (a : ActionSpec) (list : List (Str × ActionSpec)) :
    Except Str (List (Str × ActionSpec)) :=
  register "action".toList a.description a.trigger a list

/-- A call of `newoption` or `newaction`. -/
inductive Registration
  | newoption (opt : OptionSpec)
  | newaction (a : ActionSpec)

/-- `premake.option.list` and `premake.action.list` -/
structure Registry where
  options : List (Str × OptionSpec)
  actions : List (Str × ActionSpec)

def Registry.add (r : Registry) : Registration → Except Str Registry
  | .newoption opt => do
      let options ← opt.add r.options
      return { r with options }
  | .newaction a => do
      let actions ← a.add r.actions
      return { r with actions }

section Register

variable {α : Type} {what : Str} {description trigger : Option Str} {x : α}
  {list list' : List (Str × α)}

theorem register_eq_ok : register what description trigger x list = .ok list' ↔
    description.isSome ∧ ∃ t, trigger = some t ∧ list' = assign t x list := by
  cases trigger with
  | none => exact iff_of_false (fun h => by cases h) fun ⟨_, _, h, _⟩ => by cases h
  | some t =>
      cases description with
      | none => exact iff_of_false (fun h => by cases h) fun ⟨h, _⟩ => by cases h
      | some d =>
          constructor
          · intro h
            exact ⟨rfl, t, rfl, (Except.ok.inj h).symm⟩
          · rintro ⟨-, t', ht, rfl⟩
            cases ht
            rfl

end Register

section Validate

/-- The body of the loop in `premake.option.validate`: the message for an option that is not
valid. -/
def OptionSpec.complaint (opt : OptionSpec) (key value : Str) : Option Str :=
  if opt.value.isSome ∧ value = [] then
    some ("no value specified for option '".toList ++ key ++ "'".toList)
  else
    match opt.allowed with
    | none => none
    | some allowed =>
        if allowed.any fun matched => matched.1 = value then none
        else some ("invalid value '".toList ++ value ++ "' for option '".toList ++ key ++
          "'".toList)

def complaint (options : List (Str × OptionSpec)) (e : Str × Str) : Option Str :=
  match options.lookup e.1 with
  | none => some ("invalid option '".toList ++ e.1 ++ "'".toList)
  | some opt => opt.complaint e.1 e.2

/-- `premake.option.validate`: the message for the first option that is not valid. -/
def validate (ord : PairsOrder) (options : List (Str × OptionSpec)) (values : List (Str × Str)) :
    Option Str :=
  (ord.enum values).findSome? (complaint options)

/-- An option has a value if it needs one, and it is one of those that are allowed. -/
def OptionSpec.Allows (opt : OptionSpec) (value : Str) : Prop :=
  (opt.value.isSome → value ≠ []) ∧
    ∀ allowed, opt.allowed = some allowed → value ∈ allowed.map Prod.fst

variable {options : List (Str × OptionSpec)}

theorem complaint_eq_none_iff {e : Str × Str} : complaint options e = none ↔
    ∃ opt, options.lookup e.1 = some opt ∧ opt.Allows e.2 := by
  rw [complaint]
  cases options.lookup e.1 with
  | none => exact iff_of_false (Option.some_ne_none _) fun ⟨_, h, _⟩ => by cases h
  | some opt =>
      have hallows : opt.complaint e.1 e.2 = none ↔ opt.Allows e.2 := by
        rw [OptionSpec.complaint, OptionSpec.Allows]
        by_cases hvalue : opt.value.isSome ∧ e.2 = []
        · rw [if_pos hvalue]
          exact iff_of_false (Option.some_ne_none _) fun h => h.1 hvalue.1 hvalue.2
        · rw [if_neg hvalue]
          have hgiven : opt.value.isSome → e.2 ≠ [] := fun h heq => hvalue ⟨h, heq⟩
          cases opt.allowed with
          | none => exact iff_of_true rfl ⟨hgiven, fun _ h => by cases h⟩
          | some allowed =>
              have hmem : (allowed.any fun matched => matched.1 = e.2) ↔
                  e.2 ∈ allowed.map Prod.fst := by
                rw [List.any_eq_true, List.mem_map]
                exact exists_congr fun _ => and_congr_right fun _ => decide_eq_true_iff
              have hall : (∀ allowed', some allowed = some allowed' →
                  e.2 ∈ allowed'.map Prod.fst) ↔ e.2 ∈ allowed.map Prod.fst :=
                ⟨fun h => h allowed rfl, fun h _ heq => Option.some.inj heq ▸ h⟩
              rw [hall, ← hmem, and_iff_right hgiven]
              dsimp only
              split
              · exact iff_of_true rfl ‹_›
              · exact iff_of_false (Option.some_ne_none _) ‹_›
      constructor
      · exact fun h => ⟨opt, rfl, hallows.mp h⟩
      · rintro ⟨_, h, hall⟩
        cases h
        exact hallows.mpr hall

/-- The options are valid in any order of `pairs` exactly when each of them has been registered
and allows its value. -/
theorem validate_eq_none_iff (ord : PairsOrder) {values : List (Str × Str)} :
    validate ord options values = none ↔
      ∀ e ∈ values, ∃ opt, options.lookup e.1 = some opt ∧ opt.Allows e.2 := by
  rw [validate, List.findSome?_eq_none_iff]
  constructor
  · exact fun h e he => complaint_eq_none_iff.mp (h e (ord.mem_enum.mpr he))
  · exact fun h e he => complaint_eq_none_iff.mpr (h e (ord.mem_enum.mp he))

end Validate

section Builtin

/-- A value that an option allows, and what the help says about it. -/
def described (value description : String) : Str × Str := (value.toList, description.toList)

/-- The options of `cmdline.lua`. -/
def cmdlineOptions : List OptionSpec :=
  [⟨some "cc".toList, some "VALUE".toList, some "Choose a C/C++ compiler set".toList,
      some [described "gcc" "GNU GCC (gcc/g++)", described "ow" "OpenWatcom"]⟩,
    ⟨some "dotnet".toList, some "VALUE".toList, some "Choose a .NET compiler set".toList,
      some [described "msnet" "Microsoft .NET (csc)", described "mono" "Novell Mono (mcs)",
        described "pnet" "Portable.NET (cscc)"]⟩,
    ⟨some "file".toList, some "FILE".toList,
      some "Read FILE as a Premake script; default is 'premake4.lua'".toList, none⟩,
    ⟨some "help".toList, none, some "Display this information".toList, none⟩,
    ⟨some "os".toList, some "VALUE".toList,
      some "Generate files for a different operating system".toList,
      some [described "bsd" "OpenBSD, NetBSD, or FreeBSD", described "haiku" "Haiku",
        described "linux" "Linux", described "macosx" "Apple Mac OS X",
        described "solaris" "Solaris", described "windows" "Microsoft Windows"]⟩,
    ⟨some "platform".toList, some "VALUE".toList,
      some "Add target architecture (if supported by action)".toList,
      some [described "x32" "32-bit", described "x64" "64-bit",
        described "universal" "Mac OS X Universal, 32- and 64-bit",
        described "universal32" "Mac OS X Universal, 32-bit only",
        described "universal64" "Mac OS X Universal, 64-bit only",
        described "ps3" "Playstation 3 (experimental)",
        described "xbox360" "Xbox 360 (experimental)"]⟩,
    ⟨some "scripts".toList, some "path".toList,
      some "Search for additional scripts on the given path".toList, none⟩,
    ⟨some "version".toList, none, some "Display version information".toList, none⟩]

/-- The test of `oncheckproject` for Xcode, and the last kind before it. -/
def kindStep (prj : BakedProject) (last : Option Str) (cfg : BakedConfig) :
    Except Str (Option Str) :=
  if last.isSome ∧ last ≠ cfg.fields .kind then
    .error ("Project '".toList ++ prj.name ++
      "' uses more than one target kind; not supported by Xcode".toList)
  else .ok (cfg.fields .kind)

/-- `oncheckproject` of the Xcode actions. -/
def onekind (sln : Workspace) (prj : BakedProject) : Except Str Unit := do
  let _ ← (eachconfig sln prj none).foldlM (kindStep prj) none

def allKinds : List Str :=
  ["ConsoleApp".toList, "WindowedApp".toList, "StaticLib".toList, "SharedLib".toList]

/-- The action `codeblocks`. -/
def codeblocksAction : ActionSpec where
  trigger := some "codeblocks".toList
  shortname := some "Code::Blocks".toList
  description := some "Generate Code::Blocks project files".toList
  os := none
  valid_kinds := some allKinds
  valid_languages := some ["C".toList, "C++".toList]
  valid_tools := some ⟨[("cc".toList, ["gcc".toList, "ow".toList])], by decide⟩
  onsolution := true
  onproject := true
  execute := false
  oncheckproject := none

/-- The action `codelite`. -/
def codeliteAction : ActionSpec where
  trigger := some "codelite".toList
  shortname := some "CodeLite".toList
  description := some "Generate CodeLite project files".toList
  os := none
  valid_kinds := some allKinds
  valid_languages := some ["C".toList, "C++".toList]
  valid_tools := some ⟨[("cc".toList, ["gcc".toList])], by decide⟩
  onsolution := true
  onproject := true
  execute := false
  oncheckproject := none

/-- The action `gmake`. -/
def gmakeAction : ActionSpec where
  trigger := some "gmake".toList
  shortname := some "GNU Make".toList
  description := some "Generate GNU makefiles for POSIX, MinGW, and Cygwin".toList
  os := none
  valid_kinds := some allKinds
  valid_languages := some ["C".toList, "C++".toList, "C#".toList]
  valid_tools := some ⟨[("cc".toList, ["gcc".toList]),
    ("dotnet".toList, ["mono".toList, "msnet".toList, "pnet".toList])], by decide⟩
  onsolution := true
  onproject := true
  execute := false
  oncheckproject := none

def vstudioAction (version : String) : ActionSpec where
  trigger := some ("vs".toList ++ version.toList)
  shortname := some ("Visual Studio ".toList ++ version.toList)
  description := some ("Generate Microsoft Visual Studio ".toList ++ version.toList ++
    " project files".toList)
  os := some "windows".toList
  valid_kinds := some allKinds
  valid_languages := some ["C".toList, "C++".toList, "C#".toList]
  valid_tools := some ⟨[("cc".toList, ["msc".toList]), ("dotnet".toList, ["msnet".toList])],
    by decide⟩
  onsolution := true
  onproject := true
  execute := false
  oncheckproject := none

def xcodeAction (version : String) : ActionSpec where
  trigger := some ("xcode".toList ++ version.toList)
  shortname := some ("Xcode ".toList ++ version.toList)
  description := some ("Generate Apple Xcode ".toList ++ version.toList ++
    " project files (experimental)".toList)
  os := some "macosx".toList
  valid_kinds := some ["ConsoleApp".toList, "WindowedApp".toList, "SharedLib".toList,
    "StaticLib".toList]
  valid_languages := some ["C".toList, "C++".toList]
  valid_tools := some ⟨[("cc".toList, ["gcc".toList])], by decide⟩
  onsolution := true
  onproject := true
  execute := false
  oncheckproject := some onekind

/-- The action `clean`. -/
def cleanAction : ActionSpec where
  trigger := some "clean".toList
  shortname := none
  description := some "Remove all binaries and generated files".toList
  os := none
  valid_kinds := none
  valid_languages := none
  valid_tools := none
  onsolution := true
  onproject := true
  execute := false
  oncheckproject := none

def builtinActions : List ActionSpec :=
  [codeblocksAction, codeliteAction, gmakeAction] ++
    ["2002", "2003", "2005", "2008", "2010", "2012", "2013", "2015"].map vstudioAction ++
    ["3", "4"].map xcodeAction ++ [cleanAction]

def Registry.builtin : Registry where
  options := cmdlineOptions.map fun opt => (opt.trigger.getD [], opt)
  actions := builtinActions.map fun a => (a.trigger.getD [], a)

theorem registered_builtin : (cmdlineOptions.map Registration.newoption ++
    builtinActions.map Registration.newaction).foldlM Registry.add ⟨[], []⟩ =
      .ok .builtin := rfl

end Builtin

section Runs

variable {r r' : Registry} {calls : List Registration}

theorem add_cases {call : Registration} (h : r.add call = .ok r') :
    (∃ opt t, call = .newoption opt ∧ opt.trigger = some t ∧
      r' = { r with options := assign t opt r.options }) ∨
    ∃ a t, call = .newaction a ∧ a.trigger = some t ∧
      r' = { r with actions := assign t a r.actions } := by
  cases call with
  | newoption opt =>
      obtain ⟨_, hadd, heq⟩ := bind_eq_ok.mp h
      obtain ⟨-, t, ht, rfl⟩ := register_eq_ok.mp hadd
      exact .inl ⟨opt, t, rfl, ht, (Except.ok.inj heq).symm⟩
  | newaction a =>
      obtain ⟨_, hadd, heq⟩ := bind_eq_ok.mp h
      obtain ⟨-, t, ht, rfl⟩ := register_eq_ok.mp hadd
      exact .inr ⟨a, t, rfl, ht, (Except.ok.inj heq).symm⟩

/-- What holds of the registered actions and options when it holds of those that calls bring. -/
theorem registered_run {P : Str × ActionSpec → Prop} {Q : Str × OptionSpec → Prop}
    (hP : ∀ e ∈ r.actions, P e) (hQ : ∀ e ∈ r.options, Q e)
    (haction : ∀ a t, .newaction a ∈ calls → a.trigger = some t → P (t, a))
    (hoption : ∀ opt t, .newoption opt ∈ calls → opt.trigger = some t → Q (t, opt))
    (hrun : calls.foldlM Registry.add r = .ok r') :
    (∀ e ∈ r'.actions, P e) ∧ ∀ e ∈ r'.options, Q e := by
  induction calls generalizing r with
  | nil =>
      obtain rfl := foldlM_nil_eq_ok.mp hrun
      exact ⟨hP, hQ⟩
  | cons call calls ih =>
      obtain ⟨r₁, hadd, hrun⟩ := foldlM_cons_eq_ok.mp hrun
      have hlater : (∀ e ∈ r₁.actions, P e) → (∀ e ∈ r₁.options, Q e) →
          (∀ e ∈ r'.actions, P e) ∧ ∀ e ∈ r'.options, Q e := fun hP hQ =>
        ih hP hQ (fun a t ha => haction a t (List.mem_cons_of_mem _ ha))
          (fun opt t ho => hoption opt t (List.mem_cons_of_mem _ ho)) hrun
      rcases add_cases hadd with ⟨opt, t, rfl, ht, rfl⟩ | ⟨a, t, rfl, ht, rfl⟩
      · refine hlater hP fun e he => ?_
        rcases mem_of_mem_assign he with rfl | he
        · exact hoption opt t List.mem_cons_self ht
        · exact hQ e he
      · refine hlater (fun e he => ?_) hQ
        rcases mem_of_mem_assign he with rfl | he
        · exact haction a t List.mem_cons_self ht
        · exact hP e he

/-- The tools of an action are tools that `premake` has, and it has a name for the messages about
what it does not support. -/
def ActionSpec.Sound (a : ActionSpec) : Prop :=
  ((a.valid_kinds.isSome ∨ a.valid_languages.isSome ∨ a.valid_tools.isSome) →
    a.shortname.isSome) ∧
  ∀ tools ∈ a.valid_tools, ∃ ccs ∈ tools.entries.lookup "cc".toList, ccs ≠ [] ∧
    ∀ cc ∈ ccs, (toolstyle cc).isSome

/-- An option that allows only tools that `premake` has. -/
def OptionSpec.ChoosesTool (opt : OptionSpec) : Prop :=
  ∃ allowed ∈ opt.allowed, ∀ cc ∈ allowed.map Prod.fst, (toolstyle cc).isSome

/-- A call that registers an action that is sound, or an option that `premake.gettool` can
use. -/
def Registration.Sound : Registration → Prop
  | .newaction a => a.Sound
  | .newoption opt => opt.trigger = some "cc".toList → opt.ChoosesTool

instance : DecidablePred ActionSpec.Sound := fun _ => instDecidableAnd

instance : DecidablePred OptionSpec.ChoosesTool := fun opt =>
  inferInstanceAs (Decidable (∃ allowed ∈ opt.allowed, _))

theorem sound_builtinActions : ∀ a ∈ builtinActions, a.trigger.isSome ∧ a.Sound := by
  decide +kernel

theorem trigger_of_run (hrun : calls.foldlM Registry.add .builtin = .ok r') {name : Str}
    {a : ActionSpec} (ha : r'.actions.lookup name = some a) : a.trigger = some name := by
  have hbuiltin : ∀ e ∈ Registry.builtin.actions, e.2.trigger = some e.1 := by
    intro e he
    obtain ⟨a, ha, rfl⟩ := List.mem_map.mp he
    obtain ⟨t, ht⟩ := Option.isSome_iff_exists.mp (sound_builtinActions a ha).1
    show a.trigger = some (a.trigger.getD [])
    rw [ht]
    rfl
  have hkeyed := (registered_run (P := fun e => e.2.trigger = some e.1) (Q := fun _ => True)
    hbuiltin (fun _ _ => trivial) (fun a t _ ht => ht) (fun _ _ _ _ => trivial) hrun).1
  exact hkeyed (name, a) (mem_of_lookup ha)

/-- What the calls of a script leave sound: the actions, and the option for the tool. -/
theorem sound_of_run (hsound : ∀ call ∈ calls, call.Sound)
    (hrun : calls.foldlM Registry.add .builtin = .ok r') :
    (∀ name a, r'.actions.lookup name = some a → a.Sound) ∧
      ∀ opt, r'.options.lookup "cc".toList = some opt → opt.ChoosesTool := by
  have hactions : ∀ e ∈ Registry.builtin.actions, e.2.Sound := by
    intro e he
    obtain ⟨a, ha, rfl⟩ := List.mem_map.mp he
    exact (sound_builtinActions a ha).2
  have hoptions : ∀ e ∈ Registry.builtin.options, e.1 = "cc".toList → e.2.ChoosesTool := by
    decide +kernel
  have hrun := registered_run (P := fun e => e.2.Sound)
    (Q := fun e => e.1 = "cc".toList → e.2.ChoosesTool) hactions hoptions
    (fun a t ha _ => hsound _ ha) (fun opt t ho ht heq => hsound _ ho (heq ▸ ht)) hrun
  exact ⟨fun name a ha => hrun.1 (name, a) (mem_of_lookup ha),
    fun opt ho => hrun.2 (_, opt) (mem_of_lookup ho) rfl⟩

end Runs

end Puremake
