import Puremake.Host.Main

/-!
# The main program comes to an end of its own

Every check ends with a message, and what is looked up later is there once the checks have been
passed. So the program does not end with an error of Lua, except for one that the keywords of the
configuration blocks raise. What a script registers has to be usable for that: an action whose
tools `premake` does not have leads to a missing value.
-/

namespace Puremake

open FoldRun

namespace Machine

section Progress

variable {m : Machine} {c : Cmdline} {argv : List Str}

/-- The ends that the program is meant to have, and the error of baking for a bracket that is not
closed. -/
def Meant (m : Machine) (c : Cmdline) : Stop → Prop
  | .notice _ | .message _ => True
  | .script text => (m.run c).raised = some text
  | .lua _ => False
  | .bake e => (m.made c).Malformed e

theorem meant_notice (n : Notice) : Meant m c (.notice n) := trivial

theorem meant_message (text : Str) : Meant m c (.message text) := trivial

theorem meant_ofCheck {e : CheckError} (h : e.Spoken) : Meant m c (.ofCheck e) := by
  cases e with
  | message | raised => trivial
  | lua text => exact h text rfl

theorem ends_need {α : Type*} {stop : Stop} (h : Meant m c stop) (o : Option α) :
    Ends (Meant m c) (fun a => o = some a) (Stop.need stop o) := by
  cases o with
  | none => exact h
  | some a => exact ends_ok rfl

theorem ends_ofScript : Ends (Meant m c) (fun _ => True) (Stop.ofScript (m.run c).raised) := by
  cases hraised : (m.run c).raised with
  | none => exact ends_ok trivial
  | some text => exact hraised

theorem ends_test {p : Prop} [Decidable p] {stop : Stop} (h : Meant m c stop) :
    Ends (Meant m c) (fun _ => True) (Stop.test p stop) := by
  rw [Stop.test]
  split
  · exact h
  · exact ends_ok trivial

theorem ends_prepare (hsound : ∀ call ∈ (m.run c).registrations, call.Sound) :
    Ends (Meant m c) (fun p => m.prepare c = .ok p) (m.prepare c) := by
  have hends : Ends (Meant m c) (fun _ => True) (m.prepare c) := by
    rw [prepare]
    refine (ends_mapError (ends_self _) fun _ _ => trivial).bind fun registry hregistry => ?_
    refine ends_ofScript.bind fun _ _ => ?_
    refine (ends_test (meant_notice _)).bind fun _ _ => ?_
    refine (ends_test (meant_notice _)).bind fun _ _ => ?_
    refine (ends_need (meant_notice _) _).bind fun name _ => ?_
    refine (ends_test (meant_message _)).bind fun _ _ => ?_
    refine (ends_need (meant_message _) _).bind fun action haction => ?_
    have haction := (sound_of_run hsound hregistry).1 name action haction
    refine Ends.bind (P := fun _ => True) ?_ fun _ _ => ?_
    · rw [Registry.checkoptions]
      split
      · trivial
      · trivial
    · refine (ends_mapError (ends_checktools haction _) fun _ => meant_ofCheck).bind fun _ _ => ?_
      refine (ends_mapError (ends_self _) fun _ _ => ?_).bind fun _ _ => ends_pure trivial
      trivial
  exact (hends.and_of_ok fun _ h => h).imp fun _ h => h.2

theorem isSome_toolstyle {p : Prepared} (hsound : ∀ call ∈ (m.run c).registrations, call.Sound)
    (hpasses : Passes m c p.registry p.action) {cc : Str}
    (hcc : p.action.tool c.options "cc".toList = some cc) : (toolstyle cc).isSome := by
  obtain ⟨hactions, hoption⟩ := sound_of_run hsound hpasses.registered
  obtain ⟨name, -, hname⟩ := hpasses.named
  rw [ActionSpec.tool] at hcc
  cases htools : p.action.valid_tools with
  | none =>
      rw [htools, Option.bind_none, Option.or_none] at hcc
      obtain ⟨opt, hopt, hallows⟩ := hpasses.options _ (mem_of_lookup hcc)
      obtain ⟨allowed, hallowed, hknown⟩ := hoption opt hopt
      exact hknown cc (hallows.2 allowed hallowed)
  | some tools =>
      obtain ⟨ccs, hccs, -, hknown⟩ := (hactions name p.action hname).2 tools htools
      refine hknown cc ?_
      rw [htools, Option.bind_some, hccs, Option.or_eq_some_iff] at hcc
      rcases hcc with hcc | ⟨-, hcc⟩
      · exact hpasses.tools tools htools _ (mem_of_lookup hccs) cc hcc
      · exact List.mem_of_mem_head? hcc

theorem hasTool_env {p : Prepared} (hsound : ∀ call ∈ (m.run c).registrations, call.Sound)
    (hp : m.prepare c = .ok p) : (m.env c p).HasTool := by
  obtain ⟨hpasses, htools, -⟩ := prepare_eq_ok_iff.mp hp
  obtain ⟨options, hoptions, hlookup⟩ := checktools_of_chosen m.ord hpasses.tools
  obtain rfl : options = p.options := Except.ok.inj (hoptions.symm.trans htools)
  intro cfg
  rw [gettool]
  split
  · cases hcc : (m.env c p).options.lookup "cc".toList with
    | some cc => exact ⟨cc, rfl, isSome_toolstyle hsound hpasses ((hlookup _).symm.trans hcc)⟩
    | none =>
        have hnone := (hlookup "cc".toList).symm.trans hcc
        rw [ActionSpec.tool, Option.or_eq_none_iff] at hnone
        cases hvalid : p.action.valid_tools with
        | none =>
            have hcurrent : (m.env c p).current.cc = none := by
              show p.action.valid_tools.map _ = none
              rw [hvalid]
              rfl
            rw [hcurrent]
            exact ⟨"gcc".toList, rfl, rfl⟩
        | some tools =>
            obtain ⟨name, -, hname⟩ := hpasses.named
            obtain ⟨ccs, hccs, hne, -⟩ :=
              ((sound_of_run hsound hpasses.registered).1 name p.action hname).2 tools hvalid
            rw [hvalid, Option.bind_some, hccs] at hnone
            exact absurd (List.head?_eq_none_iff.mp hnone.2) hne
  · exact ⟨"dotnet".toList, rfl, rfl⟩

theorem platform_canonical {ord : PairsOrder} {cwd p q : Str} (h : canonical ord cwd p = some q) :
    (platform q).isSome := by
  have hmem := ord.mem_enum.mp (mem_of_checkvalue (toOption_eq_some.mp h))
  exact lookup_isSome_iff_mem_keys.mpr hmem

theorem bakeable_injected {E : BakeError → Prop} {platform : Option Str} {sln r : Str × Solution}
    (h : sln.2.Bakeable E) (hplatform : ∀ q, platform = some q → (Puremake.platform q).isSome)
    (hinjected : Injected platform sln r) : r.2.Bakeable E where
  lists := by
    constructor
    · rw [Container.configurations, hinjected.fields _ (by decide)]
      exact h.lists.configurations
    · intro p hp
      rcases (hinjected.platforms p).mp hp with rfl | hp | hp
      · decide
      · exact h.lists.platforms p hp
      · exact hplatform p hp
  opened := by
    rw [Container.Opened, hinjected.blocks]
    exact h.opened
  raises := by
    rw [hinjected.blocks]
    exact h.raises
  projects := by
    rw [hinjected.projects]
    exact h.projects

/-- The solutions can still be baked when a platform has been injected. -/
theorem bakeable_prepared {p : Prepared} (hp : m.prepare c = .ok p) :
    ∀ sln ∈ p.session, sln.2.Bakeable (m.made c).Malformed := by
  obtain ⟨-, -, hsession⟩ := prepare_eq_ok_iff.mp hp
  have hmade : ∀ sln ∈ m.solutions c, sln.2.Bakeable (m.made c).Malformed := fun sln hsln =>
    Script.bakeable_run (m.run c).calls (m.run c).worded sln.2 (List.of_mem_zip hsln).2
  cases hplatform : c.options.lookup "platform".toList with
  | none =>
      rw [hplatform] at hsession
      exact Except.ok.inj hsession ▸ hmade
  | some platform =>
      rw [hplatform] at hsession
      intro r hr
      obtain ⟨sln, hsln, hinjected⟩ := exists_left_of_forall₂ (injectplatform_eq_ok hsession) hr
      exact bakeable_injected (hmade sln hsln) (fun _ => platform_canonical) hinjected

theorem ends_finish (hsound : ∀ call ∈ (m.run c).registrations, call.Sound) {p : Prepared}
    (hp : m.prepare c = .ok p) : Ends (Meant m c) (fun _ => True) (m.finish c p) := by
  obtain ⟨hpasses, -, -⟩ := prepare_eq_ok_iff.mp hp
  obtain ⟨name, -, hname⟩ := hpasses.named
  have haction := (sound_of_run hsound hpasses.registered).1 name p.action hname
  have hbakeable : ∀ sln ∈ p.session.map Prod.snd, sln.Bakeable (m.made c).Malformed := by
    intro sln hsln
    obtain ⟨named, hnamed, rfl⟩ := List.mem_map.mp hsln
    exact bakeable_prepared hp named hnamed
  have hbaking := (ends_buildconfigs (hasTool_env hsound hp) hbakeable
    (m.made c).heap).and_of_ok fun _ h => h
  rw [finish]
  refine (ends_mapError hbaking fun e h => (show Meant m c (.bake e) from h)).bind
    fun baked hbaked => ?_
  have hequipped := equipped_workspaces hbaked.2
  have hcheck := ends_checkprojects haction fun sln hsln prj hprj =>
    named_of_equipped (hequipped sln hsln prj hprj)
  refine (ends_mapError hcheck fun _ => meant_ofCheck).bind fun _ _ => ?_
  rw [call_eq hpasses]
  exact ends_pure trivial

/-- A machine with the sample script, which registers an option of its own. -/
def sampleMachine : Machine where
  os := "linux".toList
  cwd := "/home".toList
  ord := .insertion
  script := fun fname =>
    if fname = "premake4.lua".toList then
      some fun _ => ⟨[.newoption ⟨some "tests".toList, none, some "Build the tests".toList, none⟩],
        Script.sampleScript, none, Script.worded_sampleScript⟩
    else none

theorem sound_sampleMachine (c : Cmdline) :
    ∀ call ∈ (sampleMachine.run c).registrations, call.Sound := by
  intro call hcall
  rw [run] at hcall
  split at hcall
  · cases hcall
  · rename_i script hscript
    rw [scriptFor, sampleMachine] at hscript
    dsimp only at hscript
    split at hscript
    · cases hscript
      rw [List.mem_singleton.mp hcall]
      exact fun heq => absurd heq (by decide)
    · cases hscript

def sampleWords : List Str :=
  ["--platform=universal".toList, "gmake".toList, "--tests".toList, "/cc=gcc".toList]

theorem exists_main_sample : ∃ done, sampleMachine.main sampleWords = .ok done := by
  have hsome : (sampleMachine.main sampleWords).toOption.isSome := by decide +kernel
  obtain ⟨done, hdone⟩ := Option.isSome_iff_exists.mp hsome
  exact ⟨done, toOption_eq_some.mp hdone⟩

end Progress

end Machine

end Puremake
