import Puremake.Bake.Equipped
import Puremake.Bake.Progress
import Puremake.Host.Validate

/-!
# The main program

`_premake_main` reads the command line, runs the project script, checks what it was asked for,
bakes the solutions and hands them to the action. The word after `--platform` is added to the
platforms of all solutions before they are baked. The program ends with a notice, with a message
or with the calls of the action.

A script can see the globals of the command line. What it does is a list of registrations and a
list of calls, in which some may raise errors that the script catches, and then it may end with an
error that it does not catch. The words of its configuration blocks are strings.
-/

namespace Puremake

open FoldRun

/-- What a project script finds in `_OPTIONS`, `_ACTION`, `_ARGS` and `_OS`. -/
structure Seen where
  cmdline : Cmdline
  os : Str

structure Ran where
  registrations : List Registration
  calls : List (Surroundings × Script.Call)
  raised : Option Str
  worded : (Script.empty.run calls).Worded

/-- What the program finds: the system, the working directory, the order of `pairs`, and the
project scripts by their names. -/
structure Machine where
  os : Str
  cwd : Str
  ord : PairsOrder
  script : Str → Option (Seen → Ran)

inductive Notice
  | version
  | help
  | shorthelp
  deriving DecidableEq, Repr

/-- The other ends of the program: a notice, a message, an error of the script, an error of Lua, or
one that ends the baking. -/
inductive Stop
  | notice (n : Notice)
  | message (text : Str)
  | script (text : Str)
  | lua (text : Str)
  | bake (e : BakeError)
  deriving DecidableEq, Repr

namespace Stop

def ofCheck : CheckError → Stop
  | .message text => .message ("Error: ".toList ++ text)
  | .raised text => .message text
  | .lua text => .lua text

def need {α : Type*} (stop : Stop) : Option α → Except Stop α
  | none => .error stop
  | some a => .ok a

def ofScript : Option Str → Except Stop Unit
  | none => .ok ()
  | some text => .error (.script text)

def test (p : Prop) [Decidable p] (stop : Stop) : Except Stop Unit :=
  if p then .error stop else .ok ()

end Stop

inductive ActionCall
  | onsolution (sln : Workspace)
  | onproject (sln : Workspace) (prj : BakedProject)
  | execute

/-- The callbacks that an action has for a session, in the order in which they are called. -/
def ActionSpec.callbacks (action : ActionSpec) (session : List Workspace) : List ActionCall :=
  (session.flatMap fun sln =>
    (if action.onsolution then [.onsolution sln] else []) ++
      if action.onproject then sln.projects.map (.onproject sln) else []) ++
    if action.execute then [.execute] else []

/-- `premake.action.call`: the callbacks that it calls. -/
def Registry.call (registry : Registry) (name : Option Str) (session : List Workspace) :
    Except Stop (List ActionCall) :=
  match name.bind fun name => registry.actions.lookup name with
  | none => .error (.lua "attempt to index a nil value".toList)
  | some a => .ok (a.callbacks session)

def Registry.checkoptions (registry : Registry) (ord : PairsOrder) (values : List (Str × Str)) :
    Except Stop Unit :=
  match validate ord registry.options values with
  | some err => .error (.message ("Error: ".toList ++ err))
  | none => .ok ()

section Inject

def Tbl.insertOnce (t : Tbl) (x : Str) : Tbl := if x ∈ t.arr then t else t.insert x

/-- The platforms of a solution with the native one, where there were none, and with a new one.
There is no result when the native platform is missing. -/
def injectTable (platform : Option Str) (platforms : Tbl) : Option Tbl :=
  -- an empty table is equivalent to a native build
  let platforms := if platforms.arr = [] then platforms.insert native else platforms
  if native ∈ platforms.arr then
    -- for a value that is not allowed `nil` is inserted, and nothing changes
    some (platform.elim platforms platforms.insertOnce)
  else none

/-- The body of the loop in `injectplatform`. -/
def injectSolution (platform : Option Str) (sln : Str × Solution) :
    Except Str (Str × Solution) :=
  match injectTable platform ((sln.2.obj.fields .platforms).getD Tbl.empty) with
  | none => .error (sln.1 ++ (" does not target native platform\n" ++
      "Native platform settings are required for the --platform feature.").toList)
  | some platforms => .ok (sln.1, { sln.2 with
      obj := { sln.2.obj with fields := sln.2.obj.fields.set .platforms platforms } })

def injectplatform (ord : PairsOrder) (cwd : Str) (platform : Option Str)
    (session : List (Str × Solution)) : Except Str (List (Str × Solution)) :=
  match platform with
  | none => .ok session
  | some platform => session.mapM
      (injectSolution (checkvalue platform (Field.platforms.allowed ord cwd)).toOption)

end Inject

namespace Machine

variable (m : Machine)

/-- `_OS` after `premake.action.set`, which comes before the script. -/
def osFor (c : Cmdline) : Str :=
  match c.action.bind fun name => Registry.builtin.actions.lookup name with
  | none => m.os
  | some action => action.os.getD m.os

def scriptFor (c : Cmdline) : Option (Seen → Ran) :=
  m.script ((c.options.lookup "file".toList).getD "premake4.lua".toList)

def run (c : Cmdline) : Ran :=
  match m.scriptFor c with
  | none => ⟨[], [], none, fun _ hb => absurd hb (Nat.not_lt_zero _)⟩
  | some script => script ⟨c, m.osFor c⟩

def registry (c : Cmdline) : Except Str Registry :=
  (m.run c).registrations.foldlM Registry.add .builtin

def made (c : Cmdline) : Script := Script.empty.run (m.run c).calls

def solutions (c : Cmdline) : List (Str × Solution) :=
  ((List.range (m.made c).session.solutionCount).map fun i =>
    ((m.made c).session.solutions i).name).zip
      ((m.made c).solutions (Script.invariant_empty.run _) (m.run c).worded)

end Machine

/-- What is known when the first checks have been passed: what is registered, the action, the
options with the tools, and the solutions with the platform. -/
structure Prepared where
  registry : Registry
  action : ActionSpec
  options : List (Str × Str)
  session : List (Str × Solution)

structure Done where
  action : ActionSpec
  session : List Workspace
  callbacks : List ActionCall

namespace Machine

variable (m : Machine)

/-- `_premake_main`, up to the baking. -/
def prepare (c : Cmdline) : Except Stop Prepared := do
  let registry ← (m.registry c).mapError .message
  Stop.ofScript (m.run c).raised
  Stop.test (c.options.lookup "version".toList).isSome (.notice .version)
  Stop.test (c.options.lookup "help".toList).isSome (.notice .help)
  let name ← Stop.need (.notice .shorthelp) c.action
  Stop.test (m.scriptFor c).isNone (.message "No Premake script (premake4.lua) found!".toList)
  let action ← Stop.need (.message ("Error: no such action '".toList ++ name ++ "'".toList))
    (registry.actions.lookup name)
  registry.checkoptions m.ord c.options
  let options ← (action.checktools m.ord c.options).mapError .ofCheck
  let session ← (injectplatform m.ord m.cwd (c.options.lookup "platform".toList)
    (m.solutions c)).mapError fun err => .message ("Error: ".toList ++ err)
  return ⟨registry, action, options, session⟩

def env (c : Cmdline) (p : Prepared) : Env where
  action := c.action.getD []
  os := (p.options.lookup "os".toList).getD (m.osFor c)
  options := p.options
  cwd := m.cwd
  current := ⟨p.action.os, p.action.valid_tools.map fun tools =>
    (tools.entries.lookup "cc".toList).getD []⟩
  ord := m.ord

def workspaces (session : List (Str × Solution)) (baked : List BakedSolution) : List Workspace :=
  List.zipWith (fun sln b => { b with name := sln.1 }) session baked

/-- `_premake_main`, from the baking on. -/
def finish (c : Cmdline) (p : Prepared) : Except Stop Done := do
  let baked ← (buildconfigs (m.env c p) (p.session.map Prod.snd) (m.made c).heap).mapError .bake
  let session := workspaces p.session baked
  (p.action.checkprojects session).mapError .ofCheck
  let callbacks ← p.registry.call p.action.trigger session
  return ⟨p.action, session, callbacks⟩

def main (argv : List Str) : Except Stop Done := do
  let c := Cmdline.parse argv
  let p ← m.prepare c
  m.finish c p

section Stops

variable {α : Type*} {stop : Stop}

theorem need_eq_ok_iff {o : Option α} {a : α} : Stop.need stop o = .ok a ↔ o = some a := by
  cases o with
  | none => exact iff_of_false (fun h => by cases h) fun h => by cases h
  | some b => exact ⟨fun h => congrArg some (Except.ok.inj h), fun h => by cases h; rfl⟩

theorem ofScript_eq_ok_iff {raised : Option Str} {u : Unit} :
    Stop.ofScript raised = .ok u ↔ raised = none := by
  cases raised with
  | none => exact iff_of_true rfl rfl
  | some text => exact iff_of_false (fun h => by cases h) (Option.some_ne_none text)

theorem test_eq_ok_iff {p : Prop} [Decidable p] {u : Unit} : Stop.test p stop = .ok u ↔ ¬ p := by
  rw [Stop.test]
  split
  · exact iff_of_false (fun h => by cases h) (not_not_intro ‹_›)
  · exact iff_of_true rfl ‹_›

end Stops

section Prepare

variable {m : Machine} {c : Cmdline} {p : Prepared}

/-- The platforms of a solution are none, or the native one is one of them. -/
def TargetsNative (sln : Solution) : Prop :=
  sln.obj.platformnames = [] ∨ native ∈ sln.obj.platformnames

/-- What the words of the command line have to be for an action to be taken. -/
structure Passes (m : Machine) (c : Cmdline) (registry : Registry) (action : ActionSpec) :
    Prop where
  registered : m.registry c = .ok registry
  ended : (m.run c).raised = none
  version : c.options.lookup "version".toList = none
  help : c.options.lookup "help".toList = none
  script : (m.scriptFor c).isSome
  named : ∃ name, c.action = some name ∧ registry.actions.lookup name = some action
  options : ∀ e ∈ c.options, ∃ opt, registry.options.lookup e.1 = some opt ∧ opt.Allows e.2
  tools : action.Chosen c.options

theorem checkoptions_eq_ok_iff {registry : Registry} {ord : PairsOrder}
    {values : List (Str × Str)} : registry.checkoptions ord values = .ok () ↔
      ∀ e ∈ values, ∃ opt, registry.options.lookup e.1 = some opt ∧ opt.Allows e.2 := by
  rw [← validate_eq_none_iff ord, Registry.checkoptions]
  cases validate ord registry.options values with
  | none => exact iff_of_true rfl rfl
  | some err => exact iff_of_false (fun h => by cases h) (Option.some_ne_none err)

theorem prepare_eq_ok_iff : m.prepare c = .ok p ↔
    Passes m c p.registry p.action ∧
      p.action.checktools m.ord c.options = .ok p.options ∧
      injectplatform m.ord m.cwd (c.options.lookup "platform".toList) (m.solutions c) =
        .ok p.session := by
  constructor
  · intro h
    obtain ⟨registry, hregistry, h⟩ := bind_eq_ok.mp h
    obtain ⟨_, hended, h⟩ := bind_eq_ok.mp h
    obtain ⟨_, hversion, h⟩ := bind_eq_ok.mp h
    obtain ⟨_, hhelp, h⟩ := bind_eq_ok.mp h
    obtain ⟨name, hname, h⟩ := bind_eq_ok.mp h
    obtain ⟨_, hscript, h⟩ := bind_eq_ok.mp h
    obtain ⟨action, haction, h⟩ := bind_eq_ok.mp h
    obtain ⟨_, hoptions, h⟩ := bind_eq_ok.mp h
    obtain ⟨options, htools, h⟩ := bind_eq_ok.mp h
    obtain ⟨session, hsession, h⟩ := bind_eq_ok.mp h
    cases h
    have htools := mapError_eq_ok_iff.mp htools
    refine ⟨⟨mapError_eq_ok_iff.mp hregistry, ofScript_eq_ok_iff.mp hended, ?_, ?_, ?_, ⟨name, need_eq_ok_iff.mp hname,
      need_eq_ok_iff.mp haction⟩, checkoptions_eq_ok_iff.mp hoptions,
      exists_checktools_iff.mp ⟨_, htools⟩⟩, htools, mapError_eq_ok_iff.mp hsession⟩
    · exact Option.not_isSome_iff_eq_none.mp (test_eq_ok_iff.mp hversion)
    · exact Option.not_isSome_iff_eq_none.mp (test_eq_ok_iff.mp hhelp)
    · exact Option.isSome_iff_ne_none.mpr fun hnone =>
        test_eq_ok_iff.mp hscript (Option.isNone_iff_eq_none.mpr hnone)
  · rintro ⟨hpasses, htools, hsession⟩
    obtain ⟨name, hname, haction⟩ := hpasses.named
    refine bind_eq_ok.mpr ⟨_, mapError_eq_ok_iff.mpr hpasses.registered, ?_⟩
    refine bind_eq_ok.mpr ⟨(), ofScript_eq_ok_iff.mpr hpasses.ended, ?_⟩
    refine bind_eq_ok.mpr ⟨(), test_eq_ok_iff.mpr (by rw [hpasses.version]; decide), ?_⟩
    refine bind_eq_ok.mpr ⟨(), test_eq_ok_iff.mpr (by rw [hpasses.help]; decide), ?_⟩
    refine bind_eq_ok.mpr ⟨name, need_eq_ok_iff.mpr hname, ?_⟩
    refine bind_eq_ok.mpr ⟨(), test_eq_ok_iff.mpr ?_, ?_⟩
    · rw [Option.isNone_iff_eq_none]
      exact Option.isSome_iff_ne_none.mp hpasses.script
    refine bind_eq_ok.mpr ⟨_, need_eq_ok_iff.mpr haction, ?_⟩
    refine bind_eq_ok.mpr ⟨(), checkoptions_eq_ok_iff.mpr hpasses.options, ?_⟩
    refine bind_eq_ok.mpr ⟨p.options, mapError_eq_ok_iff.mpr htools, ?_⟩
    exact bind_eq_ok.mpr ⟨_, mapError_eq_ok_iff.mpr hsession, rfl⟩

end Prepare

section Inject

variable {platform : Option Str} {sln r : Str × Solution}

/-- What injecting a platform does to a solution: it has the native platform and the new one, and
is otherwise the same. -/
structure Injected (platform : Option Str) (sln r : Str × Solution) : Prop where
  name : r.1 = sln.1
  projects : r.2.projects = sln.2.projects
  blocks : r.2.obj.blocks = sln.2.obj.blocks
  fields : ∀ f, f ≠ .platforms → r.2.obj.fields f = sln.2.obj.fields f
  platforms : ∀ x, x ∈ r.2.obj.platformnames ↔
    x = native ∨ x ∈ sln.2.obj.platformnames ∨ platform = some x

theorem mem_insertOnce {t : Tbl} {p x : Str} :
    x ∈ (t.insertOnce p).arr ↔ x ∈ t.arr ∨ p = x := by
  rw [Tbl.insertOnce]
  split
  · exact ⟨.inl, fun h => h.elim id fun heq => heq ▸ ‹_›⟩
  · rw [Tbl.insert, List.mem_append, List.mem_singleton, eq_comm]

variable (platform) in
theorem injectTable_of_native {t : Tbl} (h : t.arr = [] ∨ native ∈ t.arr) :
    ∃ t', injectTable platform t = some t' ∧
      ∀ x, x ∈ t'.arr ↔ x = native ∨ x ∈ t.arr ∨ platform = some x := by
  have hbase : ∃ t₀ : Tbl, (if t.arr = [] then t.insert native else t) = t₀ ∧
      ∀ x, x ∈ t₀.arr ↔ x = native ∨ x ∈ t.arr := by
    refine ⟨_, rfl, fun x => ?_⟩
    split
    · rw [Tbl.insert, List.mem_append, List.mem_singleton, or_comm]
    · exact ⟨.inr, fun hx => hx.elim (fun heq => heq ▸ h.resolve_left ‹_›) id⟩
  obtain ⟨t₀, ht₀, hmem⟩ := hbase
  have hnative : native ∈ t₀.arr := (hmem native).mpr (.inl rfl)
  rw [injectTable, ht₀]
  refine ⟨_, if_pos hnative, fun x => ?_⟩
  cases platform with
  | none =>
      refine (hmem x).trans (or_congr_right (or_iff_left ?_).symm)
      exact fun heq => Option.some_ne_none x heq.symm
  | some p => rw [Option.elim_some, mem_insertOnce, hmem, or_assoc, Option.some_inj]

theorem injectTable_eq_none_iff {t : Tbl} :
    injectTable platform t = none ↔ ¬ (t.arr = [] ∨ native ∈ t.arr) := by
  constructor
  · intro h hnative
    obtain ⟨t', ht', -⟩ := injectTable_of_native platform hnative
    rw [h] at ht'
    cases ht'
  · intro h
    rw [not_or] at h
    rw [injectTable, if_neg h.1, if_neg h.2]

variable (platform) in
theorem injectSolution_of_native (h : TargetsNative sln.2) :
    ∃ r, injectSolution platform sln = .ok r ∧ Injected platform sln r := by
  obtain ⟨t, ht, hmem⟩ := injectTable_of_native platform h
  rw [injectSolution, ht]
  refine ⟨_, rfl, rfl, rfl, rfl, fun f hf => Fields.set_of_ne (Ne.symm hf) _ _, fun x => ?_⟩
  show x ∈ (((sln.2.obj.fields.set .platforms t) .platforms).getD Tbl.empty).arr ↔ _
  rw [Fields.set_self]
  exact hmem x

theorem injectSolution_eq_ok (h : injectSolution platform sln = .ok r) :
    TargetsNative sln.2 ∧ Injected platform sln r := by
  have hnative : TargetsNative sln.2 := by
    by_contra hnot
    rw [injectSolution, injectTable_eq_none_iff.mpr hnot] at h
    cases h
  obtain ⟨r', hr', hinjected⟩ := injectSolution_of_native platform hnative
  obtain rfl : r = r' := Except.ok.inj (h.symm.trans hr')
  exact ⟨hnative, hinjected⟩

variable {ord : PairsOrder} {cwd : Str} {session session' : List (Str × Solution)}

def canonical (ord : PairsOrder) (cwd : Str) (platform : Str) : Option Str :=
  (checkvalue platform (Field.platforms.allowed ord cwd)).toOption

theorem exists_injectplatform_iff :
    (∃ session', injectplatform ord cwd platform session = .ok session') ↔
      (platform.isSome → ∀ sln ∈ session, TargetsNative sln.2) := by
  cases platform with
  | none => exact iff_of_true ⟨session, rfl⟩ fun h => absurd h Bool.false_ne_true
  | some p =>
      rw [injectplatform]
      constructor
      · rintro ⟨session', h⟩ - sln hsln
        obtain ⟨r, -, hr⟩ := exists_right_of_forall₂ (mapM_eq_ok.mp h) hsln
        exact (injectSolution_eq_ok hr).1
      · intro h
        refine (ends_mapM (R := fun _ => True) fun sln hsln => ?_).exists_ok.imp fun _ h => h.1
        obtain ⟨r, hr, -⟩ := injectSolution_of_native _ (h rfl sln hsln)
        exact ends_of_eq_ok hr trivial

theorem injectplatform_eq_ok {p : Str}
    (h : injectplatform ord cwd (some p) session = .ok session') :
    List.Forall₂ (Injected (canonical ord cwd p)) session session' :=
  (mapM_eq_ok.mp h).imp fun _ _ hr => (injectSolution_eq_ok hr).2

end Inject

section Finish

variable {m : Machine} {c : Cmdline} {p : Prepared}

theorem mem_workspaces {session : List (Str × Solution)} {baked : List BakedSolution}
    {sln : Workspace} (h : sln ∈ workspaces session baked) : sln.toBakedSolution ∈ baked := by
  rw [workspaces, ← List.map_uncurry_zip_eq_zipWith] at h
  obtain ⟨⟨s, b⟩, hzip, rfl⟩ := List.mem_map.mp h
  exact (List.of_mem_zip hzip).2

/-- The projects that an action gets have all their configurations. -/
theorem equipped_workspaces {env : Env} {session : List (Str × Solution)} {heap : Heap}
    {baked : List BakedSolution}
    (hbaked : buildconfigs env (session.map Prod.snd) heap = .ok baked) :
    ∀ sln ∈ workspaces session baked, ∀ prj ∈ sln.projects,
      Equipped sln.configurations sln.obj.platformnames prj.configs := fun sln hsln =>
  equipped_buildconfigs hbaked sln.toBakedSolution (mem_workspaces hsln)

theorem named_of_equipped {sln : Workspace} {prj : BakedProject}
    (h : Equipped sln.configurations sln.obj.platformnames prj.configs) :
    prj.root.isSome ∧ Named sln prj := by
  constructor
  · obtain ⟨e, he, hroot⟩ := h.root
    exact lookup_isSome_iff_mem_keys.mpr (List.mem_map.mpr ⟨e, he, hroot⟩)
  · intro c hc cfg hcfg
    obtain ⟨cfg', hcfg', hname, -⟩ := h.getconfig hc (List.mem_cons_self (a := native))
    rw [getconfig_eq_lookup List.mem_cons_self] at hcfg'
    replace hcfg' : prj.configs.lookup (c ++ []) = some cfg' := hcfg'
    rw [List.append_nil, hcfg] at hcfg'
    obtain rfl := Option.some.inj hcfg'
    exact hname

theorem call_eq (hpasses : Passes m c p.registry p.action) (session : List Workspace) :
    p.registry.call p.action.trigger session = .ok (p.action.callbacks session) := by
  obtain ⟨name, -, haction⟩ := hpasses.named
  rw [Registry.call, trigger_of_run hpasses.registered haction]
  show (match p.registry.actions.lookup name with | none => _ | some a => _) = _
  rw [haction]

theorem finish_eq_ok_iff (hpasses : Passes m c p.registry p.action) {done : Done} :
    m.finish c p = .ok done ↔ ∃ baked,
      buildconfigs (m.env c p) (p.session.map Prod.snd) (m.made c).heap = .ok baked ∧
        (∀ sln ∈ workspaces p.session baked, p.action.Accepts sln) ∧
          done = ⟨p.action, workspaces p.session baked,
            p.action.callbacks (workspaces p.session baked)⟩ := by
  rw [finish, bind_eq_ok]
  refine exists_congr fun baked => and_congr mapError_eq_ok_iff ?_
  rw [bind_eq_ok]
  constructor
  · rintro ⟨_, hcheck, h⟩
    rw [call_eq hpasses] at h
    exact ⟨checkprojects_eq_ok_iff.mp (mapError_eq_ok_iff.mp hcheck), (Except.ok.inj h).symm⟩
  · rintro ⟨haccepts, rfl⟩
    refine ⟨(), mapError_eq_ok_iff.mpr (checkprojects_eq_ok_iff.mpr haccepts), ?_⟩
    rw [call_eq hpasses]
    rfl

end Finish

section Main

variable {m : Machine} {c : Cmdline} {argv : List Str}

/-- The projects of a solution of the script, as the action gets them. -/
structure Handed (sln : Str × Solution) (w : Workspace) : Prop where
  name : w.name = sln.1
  projects : w.projects.map (fun prj => prj.name) =
    (sln.2.projects.filter fun prj => ¬ prj.usage).map fun prj => prj.name

structure Ready (m : Machine) (c : Cmdline) (done : Done) : Prop where
  passes : ∃ registry, Passes m c registry done.action
  handed : List.Forall₂ Handed (m.solutions c) done.session
  accepts : ∀ sln ∈ done.session, done.action.Accepts sln
  equipped : ∀ sln ∈ done.session, ∀ prj ∈ sln.projects,
    Equipped sln.configurations sln.obj.platformnames prj.configs
  platform : ∀ p, c.options.lookup "platform".toList = some p → ∀ q,
    canonical m.ord m.cwd p = some q → ∀ sln ∈ done.session, native ∈ sln.obj.platformnames ∧
      q ∈ sln.obj.platformnames
  callbacks : done.callbacks = done.action.callbacks done.session

theorem forall₂_workspaces {session : List (Str × Solution)} {baked : List BakedSolution}
    {R : Solution → BakedSolution → Prop}
    (h : List.Forall₂ R (session.map Prod.snd) baked) :
    List.Forall₂ (fun sln w => w.name = sln.1 ∧ R sln.2 w.toBakedSolution) session
      (workspaces session baked) := by
  induction session generalizing baked with
  | nil =>
      cases h
      exact .nil
  | cons sln session ih =>
      cases h with
      | cons hR h => exact .cons ⟨rfl, hR⟩ (ih h)

theorem same_injectplatform {ord : PairsOrder} {cwd : Str} {platform : Option Str}
    {session session' : List (Str × Solution)}
    (h : injectplatform ord cwd platform session = .ok session') :
    List.Forall₂ (fun sln r => r.1 = sln.1 ∧ r.2.projects = sln.2.projects) session session' := by
  cases platform with
  | none =>
      cases h
      exact List.forall₂_same.mpr fun _ _ => ⟨rfl, rfl⟩
  | some p => exact (injectplatform_eq_ok h).imp fun _ _ h => ⟨h.name, h.projects⟩

end Main

end Machine

end Puremake
