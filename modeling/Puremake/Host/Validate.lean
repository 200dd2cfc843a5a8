import Puremake.Host.Registry
import Puremake.Fold.Ends

/-!
# What is checked before an action runs

`premake.checktools` compares the tools that are chosen with those of the action, and chooses
the first of them where there is none. `premake.checkprojects` goes through the solutions, their
projects and the configurations of these, and stops at the first that the action cannot work
with. The order of `pairs` decides which message is shown, but not whether there is one.
-/

namespace Puremake

open FoldRun

/-- What ends a check: a message, an error that a callback raises, or an error of Lua. -/
inductive CheckError
  | message (text : Str)
  | raised (text : Str)
  | lua (text : Str)
  deriving DecidableEq, Repr

def CheckError.indexNil : CheckError := .lua "attempt to index a nil value".toList

def CheckError.concatNil : CheckError := .lua "attempt to concatenate a nil value".toList

def ActionSpec.unsupported (action : ActionSpec) (what : Str) : CheckError :=
  match action.shortname with
  | none => .concatNil
  | some shortname =>
      .message ("the ".toList ++ shortname ++ " action does not support ".toList ++ what)

section Tools

/-- The body of the loop in `premake.checktools`. -/
def ActionSpec.checktool (action : ActionSpec) (options : List (Str × Str))
    (e : Str × List Str) : Except CheckError (List (Str × Str)) :=
  match options.lookup e.1 with
  | some value =>
      if value ∈ e.2 then .ok options
      else .error (action.unsupported ("/".toList ++ e.1 ++ "=".toList ++ value ++
        " (yet)".toList))
  | none =>
      match e.2 with
      | [] => .ok options
      | value :: _ => .ok (assign e.1 value options)

/-- `premake.checktools`: what is then in `_OPTIONS`. -/
def ActionSpec.checktools (ord : PairsOrder) (action : ActionSpec) (options : List (Str × Str)) :
    Except CheckError (List (Str × Str)) :=
  match action.valid_tools with
  | none => .ok options
  | some tools => (ord.enum tools.entries).foldlM action.checktool options

end Tools

section Projects

/-- `premake.solution.getproject`: the root configuration is given the name of the project. -/
def BakedProject.getproject (prj : BakedProject) : Except CheckError BakedProject :=
  match prj.root with
  | none => .error .indexNil
  | some cfg => .ok { prj with configs := assign [] { cfg with name := some prj.name } prj.configs }

def supported (valid : Option (List Str)) (value : Str) : Bool := valid.all fun vs => value ∈ vs

/-- The checks of `premake.checkprojects` for a configuration. -/
def ActionSpec.checkconfig (action : ActionSpec) (prj : BakedProject) (cfg : BakedConfig) :
    Except CheckError Unit :=
  match cfg.fields .kind with
  | none =>
      match cfg.name with
      | none => .error .concatNil
      | some name => .error (.message ("project '".toList ++ prj.name ++
          "' needs a kind in configuration '".toList ++ name ++ "'".toList))
  | some kind =>
      if supported action.valid_kinds kind then .ok ()
      else .error (action.unsupported (kind ++ " projects".toList))

def ActionSpec.checklanguage (action : ActionSpec) (prj : BakedProject) : Except CheckError Unit :=
  match prj.language with
  | none => .error (.message ("project '".toList ++ prj.name ++ "' needs a language".toList))
  | some language =>
      if supported action.valid_languages language then .ok ()
      else .error (action.unsupported (language ++ " projects".toList))

def ActionSpec.checkcustom (action : ActionSpec) (sln : Workspace) (prj : BakedProject) :
    Except CheckError Unit :=
  match action.oncheckproject with
  | none => .ok ()
  | some check => (check sln prj).mapError .raised

/-- The checks of `premake.checkprojects` for a project. -/
def ActionSpec.checkproject (action : ActionSpec) (sln : Workspace) (prj : BakedProject) :
    Except CheckError Unit := do
  let prj ← prj.getproject
  action.checklanguage prj
  forM (eachconfig sln prj none) (action.checkconfig prj)
  action.checkcustom sln prj

/-- The checks of `premake.checkprojects` for a solution. -/
def ActionSpec.checksolution (action : ActionSpec) (sln : Workspace) : Except CheckError Unit :=
  if sln.projects = [] then
    .error (.message ("solution '".toList ++ sln.name ++ "' needs at least one project".toList))
  else if sln.configurations = [] then
    .error (.message ("solution '".toList ++ sln.name ++ "' needs configurations".toList))
  else forM sln.projects (action.checkproject sln)

def ActionSpec.checkprojects (action : ActionSpec) (session : List Workspace) :
    Except CheckError Unit :=
  forM session action.checksolution

end Projects

section Chosen

variable {action : ActionSpec} {options : List (Str × Str)}

/-- The tools that are chosen are tools of the action. -/
def ActionSpec.Chosen (action : ActionSpec) (options : List (Str × Str)) : Prop :=
  ∀ tools, action.valid_tools = some tools → ∀ e ∈ tools.entries, ∀ value,
    options.lookup e.1 = some value → value ∈ e.2

/-- The tool that is used: the one that is chosen, or else the first of the action. -/
def ActionSpec.tool (action : ActionSpec) (options : List (Str × Str)) (key : Str) : Option Str :=
  (options.lookup key).or (action.valid_tools.bind fun tools =>
    (tools.entries.lookup key).bind List.head?)

variable (action) in
theorem checktool_of_chosen {e : Str × List Str}
    (h : ∀ value, options.lookup e.1 = some value → value ∈ e.2) :
    ∃ options', action.checktool options e = .ok options' ∧
      ∀ k, options'.lookup k =
        if k = e.1 then (options.lookup k).or e.2.head? else options.lookup k := by
  rw [ActionSpec.checktool]
  cases hlookup : options.lookup e.1 with
  | some value =>
      refine ⟨options, if_pos (h value hlookup), fun k => ?_⟩
      split
      · rename_i hk
        rw [hk, hlookup]
        rfl
      · rfl
  | none =>
      obtain ⟨tool, values⟩ := e
      cases values with
      | nil =>
          refine ⟨options, rfl, fun k => ?_⟩
          split
          · exact (Option.or_none).symm
          · rfl
      | cons value values =>
          refine ⟨assign tool value options, rfl, fun k => ?_⟩
          split
          · rename_i hk
            subst hk
            rw [lookup_assign_self, hlookup]
            rfl
          · exact lookup_assign_of_ne ‹_› _ _

theorem checktool_of_not_chosen {e : Str × List Str} {value : Str}
    (hvalue : options.lookup e.1 = some value) (h : value ∉ e.2) :
    action.checktool options e = .error (action.unsupported
      ("/".toList ++ e.1 ++ "=".toList ++ value ++ " (yet)".toList)) := by
  rw [ActionSpec.checktool, hvalue]
  exact if_neg h

variable (action) in
/-- The loop over the tools. What one round chooses is no tool of a later one. -/
theorem foldlM_checktool {entries : List (Str × List Str)}
    (hnodup : (entries.map Prod.fst).Nodup)
    (h : ∀ e ∈ entries, ∀ value, options.lookup e.1 = some value → value ∈ e.2) :
    ∃ options', entries.foldlM action.checktool options = .ok options' ∧
      ∀ k, options'.lookup k = (options.lookup k).or ((entries.lookup k).bind List.head?) := by
  induction entries generalizing options with
  | nil => exact ⟨options, rfl, fun k => (Option.or_none).symm⟩
  | cons e entries ih =>
      rw [List.map_cons, List.nodup_cons] at hnodup
      obtain ⟨options₁, hstep, hlookup₁⟩ := checktool_of_chosen action
        (h e List.mem_cons_self)
      have hlater : ∀ e' ∈ entries, e'.1 ≠ e.1 := fun e' he' heq =>
        hnodup.1 (heq ▸ List.mem_map_of_mem he')
      obtain ⟨options', hrun, hlookup⟩ := ih hnodup.2
        fun e' he' value (hvalue : options₁.lookup e'.1 = some value) => by
          rw [hlookup₁, if_neg (hlater e' he')] at hvalue
          exact h e' (List.mem_cons_of_mem e he') value hvalue
      refine ⟨options', ?_, fun k => ?_⟩
      · rw [List.foldlM_cons, hstep]
        exact hrun
      · rw [hlookup, hlookup₁]
        obtain ⟨tool, values⟩ := e
        by_cases hk : k = tool
        · subst hk
          have hnone : entries.lookup k = none := by
            rw [← Option.not_isSome_iff_eq_none, lookup_isSome_iff_mem_keys]
            exact hnodup.1
          rw [if_pos rfl, hnone, List.lookup_cons_self]
          exact Option.or_none
        · rw [if_neg hk, lookup_cons_of_ne hk]

variable {ord : PairsOrder}

variable (ord) in
/-- Every tool is the one that was chosen, or the first of the action. -/
theorem checktools_of_chosen (h : action.Chosen options) :
    ∃ options', action.checktools ord options = .ok options' ∧
      ∀ key, options'.lookup key = action.tool options key := by
  obtain ⟨_, _, _, _, _, _, tools, _, _, _, _⟩ := action
  cases tools with
  | none => exact ⟨options, rfl, fun key => (Option.or_none).symm⟩
  | some tools =>
      have hnodup : ((ord.enum tools.entries).map Prod.fst).Nodup :=
        ((ord.perm _).map Prod.fst).nodup_iff.mpr tools.nodup
      obtain ⟨options', hrun, hlookup⟩ := foldlM_checktool _ hnodup
        fun e he => h tools rfl e (ord.mem_enum.mp he)
      refine ⟨options', hrun, fun key => ?_⟩
      rw [hlookup, ord.lookup_enum tools.nodup]
      rfl

/-- A loop that comes to its end has found only tools of the action. -/
theorem chosen_of_foldlM {entries : List (Str × List Str)}
    (hnodup : (entries.map Prod.fst).Nodup) {options' : List (Str × Str)}
    (hrun : entries.foldlM action.checktool options = .ok options') :
    ∀ e ∈ entries, ∀ value, options.lookup e.1 = some value → value ∈ e.2 := by
  induction entries generalizing options with
  | nil => exact fun e he => absurd he List.not_mem_nil
  | cons e entries ih =>
      rw [List.map_cons, List.nodup_cons] at hnodup
      rw [List.foldlM_cons, bind_eq_ok] at hrun
      obtain ⟨options₁, hstep, hrun⟩ := hrun
      have hself : ∀ value, options.lookup e.1 = some value → value ∈ e.2 := by
        intro value hvalue
        by_contra hnot
        rw [checktool_of_not_chosen hvalue hnot] at hstep
        cases hstep
      obtain ⟨options₂, hstep₂, hlookup⟩ := checktool_of_chosen action hself
      obtain rfl : options₁ = options₂ := Except.ok.inj (hstep.symm.trans hstep₂)
      refine List.forall_mem_cons.mpr ⟨hself, fun e' he' value hvalue => ?_⟩
      have hlater : e'.1 ≠ e.1 := fun heq => hnodup.1 (heq ▸ List.mem_map_of_mem he')
      refine ih hnodup.2 hrun e' he' value ?_
      rw [hlookup, if_neg hlater, hvalue]

/-- The check of the tools comes to a result, in any order of `pairs`, exactly when the tools
that are chosen are tools of the action. -/
theorem exists_checktools_iff :
    (∃ options', action.checktools ord options = .ok options') ↔ action.Chosen options := by
  constructor
  · rintro ⟨options', hrun⟩ tools htools e he
    rw [ActionSpec.checktools, htools] at hrun
    exact chosen_of_foldlM (((ord.perm _).map Prod.fst).nodup_iff.mpr tools.nodup) hrun e
      (ord.mem_enum.mpr he)
  · exact fun h => (checktools_of_chosen ord h).imp fun _ h => h.1

end Chosen

section Accepted

variable {action : ActionSpec} {sln : Workspace} {prj : BakedProject}

/-- A project as `getproject` leaves it. -/
def BakedProject.named (prj : BakedProject) : BakedProject :=
  match prj.root with
  | none => prj
  | some cfg => { prj with configs := assign [] { cfg with name := some prj.name } prj.configs }

theorem getproject_eq_ok_iff {prj' : BakedProject} :
    prj.getproject = .ok prj' ↔ prj.root.isSome ∧ prj' = prj.named := by
  rw [BakedProject.getproject, BakedProject.named]
  cases prj.root with
  | none => exact iff_of_false (fun h => by cases h) fun h => absurd h.1 Bool.false_ne_true
  | some cfg => exact ⟨fun h => ⟨rfl, (Except.ok.inj h).symm⟩, fun h => congrArg Except.ok h.2.symm⟩

def ActionSpec.AcceptsConfig (action : ActionSpec) (cfg : BakedConfig) : Prop :=
  ∃ kind, cfg.fields .kind = some kind ∧ supported action.valid_kinds kind

structure ActionSpec.AcceptsProject (action : ActionSpec) (sln : Workspace) (prj : BakedProject) :
    Prop where
  root : prj.root.isSome
  language : ∃ language, prj.language = some language ∧ supported action.valid_languages language
  configs : ∀ cfg ∈ eachconfig sln prj none, action.AcceptsConfig cfg
  custom : ∀ check, action.oncheckproject = some check → check sln prj.named = .ok ()

structure ActionSpec.Accepts (action : ActionSpec) (sln : Workspace) : Prop where
  projects : sln.projects ≠ []
  configurations : sln.configurations ≠ []
  each : ∀ prj ∈ sln.projects, action.AcceptsProject sln prj

theorem checkconfig_eq_ok_iff {cfg : BakedConfig} :
    action.checkconfig prj cfg = .ok () ↔ action.AcceptsConfig cfg := by
  rw [ActionSpec.checkconfig, ActionSpec.AcceptsConfig]
  cases cfg.fields .kind with
  | none =>
      refine iff_of_false (fun h => ?_) fun ⟨_, h, _⟩ => by cases h
      cases hname : cfg.name <;> rw [hname] at h <;> cases h
  | some kind =>
      dsimp only
      split
      · exact iff_of_true rfl ⟨kind, rfl, ‹_›⟩
      · refine iff_of_false (fun h => by cases h) ?_
        rintro ⟨_, heq, h⟩
        cases heq
        contradiction

theorem checklanguage_eq_ok_iff : action.checklanguage prj = .ok () ↔
    ∃ language, prj.language = some language ∧ supported action.valid_languages language := by
  rw [ActionSpec.checklanguage]
  cases prj.language with
  | none => exact iff_of_false (fun h => by cases h) fun ⟨_, h, _⟩ => by cases h
  | some language =>
      dsimp only
      split
      · exact iff_of_true rfl ⟨language, rfl, ‹_›⟩
      · refine iff_of_false (fun h => by cases h) ?_
        rintro ⟨_, heq, h⟩
        cases heq
        contradiction

theorem checkcustom_eq_ok_iff : action.checkcustom sln prj = .ok () ↔
    ∀ check, action.oncheckproject = some check → check sln prj = .ok () := by
  rw [ActionSpec.checkcustom]
  cases action.oncheckproject with
  | none => exact iff_of_true rfl fun _ h => by cases h
  | some check =>
      constructor
      · intro h _ heq
        cases heq
        dsimp only at h
        cases hcheck : check sln prj with
        | error e => rw [hcheck] at h; cases h
        | ok u => rfl
      · intro h
        dsimp only
        rw [h check rfl]
        rfl

theorem fields_lookup_named (k : Str) : (prj.named.configs.lookup k).map (fun cfg => cfg.fields) =
    (prj.configs.lookup k).map fun cfg => cfg.fields := by
  rw [BakedProject.named]
  cases hroot : prj.root with
  | none => rfl
  | some cfg =>
      by_cases hk : k = []
      · subst hk
        have hlookup : prj.configs.lookup [] = some cfg := hroot
        rw [lookup_assign_self, hlookup]
        rfl
      · rw [lookup_assign_of_ne hk]

theorem language_named : prj.named.language = prj.language := by
  have hlanguage : ∀ prj : BakedProject, prj.language =
      ((prj.configs.lookup []).map fun cfg => cfg.fields).bind fun c => c .language := by
    intro prj
    rw [BakedProject.language, BakedProject.root]
    cases prj.configs.lookup [] <;> rfl
  rw [hlanguage, hlanguage, fields_lookup_named]

/-- Two tables with the same fields under all keys are gone through with the same fields. -/
theorem map_eachconfig {α β : Type*} {g g' : Str → Option α} {F : α → β}
    (h : ∀ c, (g c).map F = (g' c).map F) (cs : List Str) :
    (((cs.map g).takeWhile Option.isSome).filterMap id).map F =
      (((cs.map g').takeWhile Option.isSome).filterMap id).map F := by
  induction cs with
  | nil => rfl
  | cons c cs ih =>
      have hc := h c
      rw [List.map_cons, List.map_cons, List.takeWhile_cons, List.takeWhile_cons]
      cases hg : g c with
      | none =>
          rw [hg] at hc
          cases hg' : g' c with
          | none => rfl
          | some b => rw [hg'] at hc; cases hc
      | some a =>
          rw [hg] at hc
          cases hg' : g' c with
          | none => rw [hg'] at hc; cases hc
          | some b =>
              rw [hg'] at hc
              exact congrArg₂ List.cons (Option.some.inj hc) ih

theorem fields_eachconfig_named : (eachconfig sln prj.named none).map (fun cfg => cfg.fields) =
    (eachconfig sln prj none).map fun cfg => cfg.fields :=
  map_eachconfig (fun _ => fields_lookup_named _) _

theorem acceptsConfig_eachconfig_named :
    (∀ cfg ∈ eachconfig sln prj.named none, action.AcceptsConfig cfg) ↔
      ∀ cfg ∈ eachconfig sln prj none, action.AcceptsConfig cfg := by
  have hfields : ∀ prj : BakedProject,
      (∀ cfg ∈ eachconfig sln prj none, action.AcceptsConfig cfg) ↔
        ∀ c ∈ (eachconfig sln prj none).map (fun cfg => cfg.fields),
          ∃ kind, c .kind = some kind ∧ supported action.valid_kinds kind :=
    fun prj => by rw [List.forall_mem_map]; rfl
  rw [hfields, hfields, fields_eachconfig_named]

theorem checkproject_eq_ok_iff :
    action.checkproject sln prj = .ok () ↔ action.AcceptsProject sln prj := by
  rw [ActionSpec.checkproject]
  constructor
  · intro h
    obtain ⟨prj', hprj', h⟩ := bind_eq_ok.mp h
    obtain ⟨hroot, rfl⟩ := getproject_eq_ok_iff.mp hprj'
    obtain ⟨_, hlanguage, h⟩ := bind_eq_ok.mp h
    obtain ⟨_, hconfigs, hcustom⟩ := bind_eq_ok.mp h
    refine ⟨hroot, ?_, ?_, checkcustom_eq_ok_iff.mp hcustom⟩
    · exact language_named ▸ checklanguage_eq_ok_iff.mp hlanguage
    · exact acceptsConfig_eachconfig_named.mp fun cfg hcfg =>
        checkconfig_eq_ok_iff.mp (forM_eq_ok_iff.mp hconfigs cfg hcfg)
  · intro h
    refine bind_eq_ok.mpr ⟨prj.named, getproject_eq_ok_iff.mpr ⟨h.root, rfl⟩, ?_⟩
    refine bind_eq_ok.mpr ⟨(), checklanguage_eq_ok_iff.mpr ?_, ?_⟩
    · rw [language_named]
      exact h.language
    refine bind_eq_ok.mpr ⟨(), forM_eq_ok_iff.mpr fun cfg hcfg => ?_,
      checkcustom_eq_ok_iff.mpr h.custom⟩
    exact checkconfig_eq_ok_iff.mpr (acceptsConfig_eachconfig_named.mpr h.configs cfg hcfg)

theorem checksolution_eq_ok_iff : action.checksolution sln = .ok () ↔ action.Accepts sln := by
  rw [ActionSpec.checksolution]
  by_cases hprojects : sln.projects = []
  · rw [if_pos hprojects]
    exact iff_of_false (fun h => by cases h) fun h => h.projects hprojects
  · by_cases hconfigurations : sln.configurations = []
    · rw [if_neg hprojects, if_pos hconfigurations]
      exact iff_of_false (fun h => by cases h) fun h => h.configurations hconfigurations
    · rw [if_neg hprojects, if_neg hconfigurations, forM_eq_ok_iff]
      constructor
      · exact fun h => ⟨hprojects, hconfigurations, fun prj hprj =>
          checkproject_eq_ok_iff.mp (h prj hprj)⟩
      · exact fun h prj hprj => checkproject_eq_ok_iff.mpr (h.each prj hprj)

/-- The projects are checked exactly for what the action needs of them. -/
theorem checkprojects_eq_ok_iff {session : List Workspace} :
    action.checkprojects session = .ok () ↔ ∀ sln ∈ session, action.Accepts sln := by
  rw [ActionSpec.checkprojects, forM_eq_ok_iff]
  exact forall₂_congr fun _ _ => checksolution_eq_ok_iff

/-- Behind a configuration with a kind, all the others have this kind. -/
theorem exists_foldlM_kindStep_iff {kind : Str} {cfgs : List BakedConfig} :
    (∃ last, cfgs.foldlM (kindStep prj) (some kind) = .ok last) ↔
      ∀ cfg ∈ cfgs, cfg.fields .kind = some kind := by
  induction cfgs with
  | nil => exact iff_of_true ⟨_, rfl⟩ fun cfg hcfg => absurd hcfg List.not_mem_nil
  | cons cfg cfgs ih =>
      rw [List.foldlM_cons, List.forall_mem_cons, ← ih, kindStep]
      by_cases hkind : cfg.fields .kind = some kind
      · rw [if_neg fun h => h.2 hkind.symm, hkind]
        exact (and_iff_right rfl).symm
      · rw [if_pos ⟨rfl, fun h => hkind h.symm⟩]
        exact iff_of_false (fun ⟨_, h⟩ => by cases h) fun h => hkind h.1

/-- The check of the Xcode actions, for configurations that have kinds: there is only one. -/
theorem onekind_eq_ok_iff (h : ∀ cfg ∈ eachconfig sln prj none, (cfg.fields .kind).isSome) :
    onekind sln prj = .ok () ↔ ∀ cfg ∈ eachconfig sln prj none,
      ∀ cfg' ∈ eachconfig sln prj none, cfg'.fields .kind = cfg.fields .kind := by
  have hrun : onekind sln prj = .ok () ↔
      ∃ last, (eachconfig sln prj none).foldlM (kindStep prj) none = .ok last := by
    rw [onekind, bind_eq_ok]
    exact exists_congr fun _ => and_iff_left rfl
  rw [hrun]
  cases hcfgs : eachconfig sln prj none with
  | nil => exact iff_of_true ⟨_, rfl⟩ fun cfg hcfg => absurd hcfg List.not_mem_nil
  | cons cfg cfgs =>
      obtain ⟨kind, hkind⟩ := Option.isSome_iff_exists.mp (h cfg (hcfgs ▸ List.mem_cons_self))
      have hfirst : kindStep prj none cfg = .ok (some kind) := by
        rw [kindStep, if_neg fun h => absurd h.1 Bool.false_ne_true, hkind]
      rw [List.foldlM_cons, hfirst]
      refine exists_foldlM_kindStep_iff.trans ⟨fun hall => ?_, fun hall => ?_⟩
      · have heach : ∀ c ∈ cfg :: cfgs, c.fields .kind = some kind :=
          List.forall_mem_cons.mpr ⟨hkind, hall⟩
        exact fun c hc c' hc' => (heach c' hc').trans (heach c hc).symm
      · exact fun c hc => (hall cfg List.mem_cons_self c (List.mem_cons_of_mem cfg hc)).trans hkind

end Accepted

section Spoken

variable {action : ActionSpec} {sln : Workspace} {prj : BakedProject} {ord : PairsOrder}

/-- The check ends with a text of its own, and not with an error of Lua. -/
def CheckError.Spoken (e : CheckError) : Prop := ∀ text, e ≠ .lua text

theorem spoken_unsupported (h : action.shortname.isSome) (what : Str) :
    (action.unsupported what).Spoken := by
  obtain ⟨shortname, hshortname⟩ := Option.isSome_iff_exists.mp h
  rw [ActionSpec.unsupported, hshortname]
  exact fun text heq => by cases heq

theorem isSome_of_not_supported {valid : Option (List Str)} {value : Str}
    (h : ¬ supported valid value) : valid.isSome := by
  cases valid with
  | none => exact absurd rfl h
  | some vs => rfl

theorem ends_checktools (hsound : action.Sound) (options : List (Str × Str)) :
    Ends CheckError.Spoken (fun options' => action.checktools ord options = .ok options')
      (action.checktools ord options) := by
  have hends : Ends CheckError.Spoken (fun _ => True) (action.checktools ord options) := by
    rw [ActionSpec.checktools]
    cases htools : action.valid_tools with
    | none => exact ends_ok trivial
    | some tools =>
        refine ends_foldlM (I := fun _ => True) trivial fun options e _ _ => ?_
        rw [ActionSpec.checktool]
        split
        · split
          · exact ends_ok trivial
          · exact spoken_unsupported (hsound.1 (.inr (.inr (htools ▸ rfl)))) _
        · split
          · exact ends_ok trivial
          · exact ends_ok trivial
  exact (hends.and_of_ok fun _ h => h).imp fun _ h => h.2

theorem ends_checklanguage (hsound : action.Sound) :
    Ends CheckError.Spoken (fun _ => True) (action.checklanguage prj) := by
  rw [ActionSpec.checklanguage]
  split
  · exact fun text heq => by cases heq
  · split
    · exact ends_ok trivial
    · rename_i h
      exact spoken_unsupported (hsound.1 (.inr (.inl (isSome_of_not_supported h)))) _

theorem ends_checkconfig (hsound : action.Sound) {cfg : BakedConfig} (hname : cfg.name.isSome) :
    Ends CheckError.Spoken (fun _ => True) (action.checkconfig prj cfg) := by
  obtain ⟨name, hname⟩ := Option.isSome_iff_exists.mp hname
  rw [ActionSpec.checkconfig, hname]
  split
  · exact fun text heq => by cases heq
  · split
    · exact ends_ok trivial
    · rename_i h
      exact spoken_unsupported (hsound.1 (.inl (isSome_of_not_supported h))) _

theorem ends_checkcustom : Ends CheckError.Spoken (fun _ => True) (action.checkcustom sln prj) := by
  rw [ActionSpec.checkcustom]
  split
  · exact ends_ok trivial
  · rename_i check _
    cases check sln prj with
    | error text => exact fun _ heq => by cases heq
    | ok u => exact ends_ok trivial

/-- The configurations of a project that its solution lists have names. -/
def Named (sln : Workspace) (prj : BakedProject) : Prop :=
  ∀ c ∈ sln.configurations, ∀ cfg, prj.configs.lookup c = some cfg → cfg.name.isSome

theorem mem_eachconfig {platform : Option Str} {cfg : BakedConfig}
    (h : cfg ∈ eachconfig sln prj platform) : ∃ c ∈ sln.configurations,
      getconfig sln.obj.platformnames prj.configs (some c) platform = some cfg := by
  obtain ⟨o, ho, hcfg⟩ := List.mem_filterMap.mp h
  obtain ⟨c, hc, heq⟩ := List.mem_map.mp ((List.takeWhile_prefix _).subset ho)
  exact ⟨c, hc, heq.trans hcfg⟩

theorem isSome_name_of_mem_eachconfig_named (h : Named sln prj) {cfg : BakedConfig}
    (hcfg : cfg ∈ eachconfig sln prj.named none) : cfg.name.isSome := by
  obtain ⟨c, hc, hlookup⟩ := mem_eachconfig hcfg
  replace hlookup : prj.named.configs.lookup (c ++ []) = some cfg := hlookup
  rw [List.append_nil, BakedProject.named] at hlookup
  cases hroot : prj.root with
  | none =>
      rw [hroot] at hlookup
      exact h c hc cfg hlookup
  | some root =>
      rw [hroot] at hlookup
      by_cases heq : c = []
      · subst heq
        rw [lookup_assign_self] at hlookup
        cases hlookup
        rfl
      · rw [lookup_assign_of_ne heq] at hlookup
        exact h c hc cfg hlookup

/-- When every project has its configurations, the projects are checked without an error of
Lua. -/
theorem ends_checkprojects (hsound : action.Sound) {session : List Workspace}
    (h : ∀ sln ∈ session, ∀ prj ∈ sln.projects, prj.root.isSome ∧ Named sln prj) :
    Ends CheckError.Spoken (fun _ => True) (action.checkprojects session) := by
  refine ends_forM fun sln hsln => ?_
  rw [ActionSpec.checksolution]
  split
  · exact fun text heq => by cases heq
  · split
    · exact fun text heq => by cases heq
    · refine ends_forM fun prj hprj => ?_
      obtain ⟨hroot, hnamed⟩ := h sln hsln prj hprj
      refine Ends.bind (P := (· = prj.named))
        (ends_of_eq_ok (getproject_eq_ok_iff.mpr ⟨hroot, rfl⟩) rfl) ?_
      rintro _ rfl
      refine (ends_checklanguage hsound).bind fun _ _ => ?_
      refine (ends_forM fun cfg hcfg => ?_).bind fun _ _ => ends_checkcustom
      exact ends_checkconfig hsound (isSome_name_of_mem_eachconfig_named hnamed hcfg)

end Spoken

end Puremake
