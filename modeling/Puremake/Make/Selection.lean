import Puremake.Action.Objects
import Puremake.Bake.Owners
import Mathlib.Data.List.Nodup
import Mathlib.Data.List.TakeWhile
import Mathlib.Tactic.Choose

/-!
# Which blocks of a makefile are active

A project makefile has a block for every configuration, and `config` selects among them.
In a C/C++ makefile a block is active when the value is the short name of its configuration,
and in a C# makefile when the name of its configuration, in lower case, stands somewhere in
the value. The value is the short name of a configuration and a platform, so a C# block is
also active for configurations whose names go on behind its own, or stand around it.
-/

namespace Puremake

open FoldRun

namespace Make

/-- The text before the first `\)`, and the text behind it. -/
def cutClosing : Str → Option (Str × Str)
  | '\\' :: ')' :: s => some ([], s)
  | c :: s => (cutClosing s).map fun (a, b) => (c :: a, b)
  | [] => none

/-- The last replacement of `_MAKE.esc`, for a text that is not longer than the fuel. -/
def restoreShell : ℕ → Str → Str
  | fuel + 1, '$' :: '\\' :: '(' :: s =>
    match cutClosing s with
    | some (a, b) => '$' :: '(' :: a ++ ')' :: restoreShell fuel b
    | none => '$' :: restoreShell fuel ('\\' :: '(' :: s)
  | fuel + 1, c :: s => c :: restoreShell fuel s
  | _, s => s

def esc (value : Str) : Str :=
  let result := value.flatMap fun c => if c ∈ "\\ ()".toList then ['\\', c] else [c]
  restoreShell result.length result

/-- The line that a configuration block starts with: a test for a text that is the value
of `config`, or one that stands in it. -/
inductive Guard
  | ifeq (text : Str)
  | findstring (text : Str)
  deriving DecidableEq, Repr

/-- A text that stands for itself wherever it is written in a makefile. -/
def PlainText (s : Str) : Prop :=
  s ≠ [] ∧ ∀ c ∈ s, c ∉ " \t\n\r\\()$#,".toList

instance (s : Str) : Decidable (PlainText s) :=
  have : Decidable (∀ c ∈ s, c ∉ " \t\n\r\\()$#,".toList) := List.decidableBAll _ s
  inferInstanceAs (Decidable (_ ∧ _))

end Make

/-- How `make` evaluates the tests `ifeq ($(config),text)` and
`ifneq (,$(findstring text,$(config)))`, for a text and a value of `config`. Plain texts are
compared as they are. -/
structure Make where
  ifeq : Str → Str → Bool
  findstring : Str → Str → Bool
  ifeq_plain : ∀ text value, Make.PlainText text → Make.PlainText value →
    (ifeq text value = true ↔ text = value)
  findstring_plain : ∀ text value, Make.PlainText text → Make.PlainText value →
    (findstring text value = true ↔ text <:+: value)

namespace Make

/-- The test of a block for a value of `config`. -/
def isActive (mk : Make) (value : Str) : Guard → Bool
  | .ifeq text => mk.ifeq text value
  | .findstring text => mk.findstring text value

/-- `premake.gmake_cpp_config`: the test of the block of a configuration -/
def gmake_cpp_config (cfg : BakedConfig) : Except BakeError (Guard × BakedConfig) :=
  match cfg.shortname with
  | some shortname => .ok (.ifeq (esc shortname), cfg)
  | none => .error .indexNil

/-- `premake.gmake_cs_config`: the test of the block of a configuration -/
def gmake_cs_config (cfg : BakedConfig) : Except BakeError (Guard × BakedConfig) :=
  match cfg.name with
  | some name => .ok (.findstring (esc (Str.lower name)), cfg)
  | none => .error .indexNil

/-- `premake.gcc.platforms`, where a table stands for itself. -/
def gccPlatforms : List (Str × Str) :=
  ["Native".toList, "x32".toList, "x64".toList, "Universal".toList, "Universal32".toList,
    "Universal64".toList, "PS3".toList, "WiiDev".toList].map fun p => (p, p)

def platforms (sln : Workspace) : List Str :=
  filterplatforms sln.obj.platformnames gccPlatforms (some native)

/-- `premake.make_cpp`: the configuration blocks -/
def make_cpp (sln : Workspace) (prj : BakedProject) :
    Except BakeError (List (Guard × BakedConfig)) :=
  ((platforms sln).flatMap fun p => eachconfig sln prj (some p)).mapM gmake_cpp_config

/-- `premake.make_csharp`: the configuration blocks -/
def make_csharp (sln : Workspace) (prj : BakedProject) :
    Except BakeError (List (Guard × BakedConfig)) :=
  (eachconfig sln prj none).mapM gmake_cs_config

/-- The value of `config` that the makefile of the solution shows for a configuration and a
platform. -/
def advertised (c p : Str) : Except BakeError (Option Str) := getconfigname (some c) p true

/-- Exactly one of the configuration blocks is active. -/
def Activates (mk : Make) (value : Str)
    (blocks : Except BakeError (List (Guard × BakedConfig))) (P : BakedConfig → Prop) : Prop :=
  ∃ bs, blocks = .ok bs ∧ ∃ b, bs.filter (fun b => mk.isActive value b.1) = [b] ∧ P b.2

/-- Every value that the solution shows selects one configuration in each project: that of
the configuration and the platform in C/C++ projects, and that of the configuration in
C# projects. -/
def Selects (mk : Make) (sln : Workspace) : Prop :=
  ∀ c ∈ sln.configurations, ∀ p ∈ platforms sln,
    ∃ value, advertised c p = .ok (some value) ∧ ∀ prj ∈ sln.projects,
      (iscppproject prj → Activates mk value (make_cpp sln prj) fun cfg =>
        cfg.name = some c ∧ cfg.platform = p) ∧
      (isdotnetproject prj → Activates mk value (make_csharp sln prj) fun cfg =>
        cfg.name = some c)

/-- The configurations of C/C++ projects are not hidden by others with the same key, and have
different short names. -/
def CppApart (cs ps selected : List Str) : Prop :=
  (∀ c ∈ cs, ∀ p ∈ selected, owner (pairs cs ps) (configKey (some c) p) = some (c, p)) ∧
    ∀ c ∈ cs, ∀ p ∈ selected, ∀ c' ∈ cs, ∀ p' ∈ selected,
      Str.lower c ++ cfgsuffix p = Str.lower c' ++ cfgsuffix p' → c = c' ∧ p = p'

/-- The configurations of C# projects are not hidden by others with the same key, and the
name of none of them stands in the short name of another one. -/
def CsApart (cs ps selected : List Str) : Prop :=
  (∀ c ∈ cs, owner (pairs cs ps) c = some (c, native)) ∧
    ∀ c ∈ cs, ∀ p ∈ selected, ∀ c' ∈ cs,
      Str.lower c' <:+: Str.lower c ++ cfgsuffix p → c' = c

/-- The names of a solution with certain projects. -/
def NamesSelect (sln : Workspace) : Prop :=
  (hascppproject sln → CppApart sln.configurations sln.obj.platformnames (platforms sln)) ∧
    (hasdotnetproject sln → CsApart sln.configurations sln.obj.platformnames (platforms sln))

instance (cs ps selected : List Str) : Decidable (CppApart cs ps selected) :=
  inferInstanceAs (Decidable ((∀ _ ∈ _, _) ∧ ∀ _ ∈ _, _))

instance (cs ps selected : List Str) : Decidable (CsApart cs ps selected) :=
  inferInstanceAs (Decidable ((∀ _ ∈ _, _) ∧ ∀ _ ∈ _, _))

instance (sln : Workspace) : Decidable (NamesSelect sln) :=
  inferInstanceAs (Decidable ((_ → _) ∧ (_ → _)))

section Plain

theorem restoreShell_of_plain {s : Str} (hs : '\\' ∉ s) (fuel : ℕ) : restoreShell fuel s = s := by
  induction fuel generalizing s with
  | zero => cases s <;> rfl
  | succ fuel ih =>
      cases s with
      | nil => rfl
      | cons c s =>
          rw [restoreShell, ih fun h => hs (List.mem_cons_of_mem _ h)]
          rintro t - rfl
          exact hs (by simp)

theorem esc_plain {s : Str} (hs : PlainText s) : esc s = s := by
  have hchar : ∀ c ∈ s, c ∉ "\\ ()".toList := by
    have hsub : ∀ c ∈ "\\ ()".toList, c ∈ " \t\n\r\\()$#,".toList :=
      forall_mem_of_all (by decide)
    exact fun c hc hmem => hs.2 c hc (hsub c hmem)
  have hkeep : (s.flatMap fun c => if c ∈ "\\ ()".toList then ['\\', c] else [c]) = s := by
    calc (s.flatMap fun c => if c ∈ "\\ ()".toList then ['\\', c] else [c])
        = s.flatMap fun c => [c] := List.flatMap_congr fun c hc => if_neg (hchar c hc)
      _ = s := List.flatMap_singleton' s
  rw [esc]
  simp only [hkeep]
  exact restoreShell_of_plain (fun h => hchar _ h (by decide)) _

theorem plainText_lower {c : Str} (hc : PlainText c) : PlainText (Str.lower c) := by
  have hletter : ∀ d ∈ " \t\n\r\\()$#,".toList,
      ¬ ('A' ≤ d ∧ d ≤ 'Z') ∧ ¬ ('a' ≤ d ∧ d ≤ 'z') :=
      forall_mem_of_all (by decide)
  refine ⟨by simpa [Str.lower] using hc.1, fun d hd hmem => ?_⟩
  obtain ⟨e, he, rfl⟩ := List.mem_map.mp hd
  obtain ⟨hupper, hlower⟩ := hletter _ hmem
  have heq := (toLower_eq_iff hupper hlower).mp rfl
  exact hc.2 e he (heq ▸ hmem)

theorem plainText_cfgsuffix :
    ∀ p ∈ platformKeys, ∀ c ∈ cfgsuffix p, c ∉ " \t\n\r\\()$#,".toList := fun p hp =>
  forall_mem_of_all ((by decide : ∀ q ∈ platformKeys,
    (cfgsuffix q).all (fun c => c ∉ " \t\n\r\\()$#,".toList) = true) p hp)

theorem plainText_shortname {c p : Str} (hc : PlainText c) (hp : p ∈ platformKeys) :
    PlainText (Str.lower c ++ cfgsuffix p) := by
  refine ⟨List.append_ne_nil_of_left_ne_nil (plainText_lower hc).1 _, fun d hd => ?_⟩
  rcases List.mem_append.mp hd with hd | hd
  · exact (plainText_lower hc).2 d hd
  · exact plainText_cfgsuffix p hp d hd

end Plain

section Platforms

variable {sln : Workspace} {p : Str}

theorem platforms_spec (sln : Workspace) : platforms sln ≠ [] ∧ (platforms sln).Nodup ∧
    ∀ p ∈ platforms sln, p ∈ pltnames sln.obj.platformnames ∧ p ∈ platformKeys := by
  have hkeys : ∀ p, (gccPlatforms.lookup p).isSome → p ∈ platformKeys := by
    intro p hp
    obtain ⟨v, hv⟩ := Option.isSome_iff_exists.mp hp
    have hmem : p ∈ gccPlatforms.map Prod.fst := List.mem_map.mpr ⟨_, mem_of_lookup hv, rfl⟩
    exact (by decide : ∀ q ∈ gccPlatforms.map Prod.fst, q ∈ platformKeys) p hmem
  obtain ⟨hne, hmem, hsome, hnodup⟩ :=
    filterplatforms_spec gccPlatforms sln.obj.platformnames native (by decide)
  refine ⟨hne, List.Nodup.of_map _ hnodup, fun p hp => ⟨?_, hkeys p (hsome p hp)⟩⟩
  rw [mem_pltnames]
  by_cases hnative : p = native
  · exact .inl hnative
  · exact .inr ⟨(hmem p hp).resolve_right hnative, hnative⟩

end Platforms

section Selection

variable {α : Type*} {p : α → Bool} {l : List α} {x : α}

theorem filter_eq_singleton (hl : l.Nodup) (hx : x ∈ l) (h : ∀ y ∈ l, p y = true ↔ y = x) :
    l.filter p = [x] := by
  refine List.perm_singleton.mp ((List.perm_ext_iff_of_nodup (hl.filter p)
    (List.nodup_singleton x)).mpr fun y => ?_)
  rw [List.mem_filter, List.mem_singleton]
  constructor
  · rintro ⟨hy, hp⟩
    exact (h y hy).mp hp
  · rintro rfl
    exact ⟨hx, (h y hx).mpr rfl⟩

theorem eq_of_filter_eq_singleton (h : l.filter p = [x]) {y : α} (hy : y ∈ l) (hp : p y = true) :
    y = x := by
  have hmem : y ∈ l.filter p := List.mem_filter.mpr ⟨hy, hp⟩
  rw [h] at hmem
  exact List.mem_singleton.mp hmem

end Selection

section Apart

variable {cs ps A : List Str} {o : Str → Str → Str × Str}

def blockPairs (cs A : List Str) : List (Str × Str) := A.flatMap fun p => cs.map fun c => (c, p)

theorem mem_blockPairs {c p : Str} : (c, p) ∈ blockPairs cs A ↔ c ∈ cs ∧ p ∈ A := by
  simp only [blockPairs, List.mem_flatMap, List.mem_map, Prod.mk.injEq]
  constructor
  · rintro ⟨p', hp', c', hc', rfl, rfl⟩
    exact ⟨hc', hp'⟩
  · rintro ⟨hc, hp⟩
    exact ⟨p, hp, c, hc, rfl, rfl⟩

theorem nodup_blockPairs (hcs : cs.Nodup) (hA : A.Nodup) : (blockPairs cs A).Nodup := by
  refine List.nodup_flatMap.mpr ⟨fun p _ => hcs.map fun _ _ h => (Prod.mk.inj h).1, ?_⟩
  refine hA.imp fun {p q} hne => ?_
  refine List.disjoint_left.mpr fun x hx hy => ?_
  obtain ⟨c, -, rfl⟩ := List.mem_map.mp hx
  obtain ⟨d, -, heq⟩ := List.mem_map.mp hy
  exact hne (Prod.mk.inj heq).2.symm

def shortname (cp : Str × Str) : Str := Str.lower cp.1 ++ cfgsuffix cp.2

/-- Every short name selects its own pair, where `o` says which pair is found under a key,
exactly when no pair is hidden and the short names are different. -/
theorem cppApart_iff (hcs : cs.Nodup) (hA : A.Nodup) (hps : ∀ p ∈ A, p ∈ pltnames ps)
    (ho : ∀ c ∈ cs, ∀ p ∈ pltnames ps,
      owner (pairs cs ps) (configKey (some c) p) = some (o c p)) :
    (∀ c ∈ cs, ∀ p ∈ A, ∃ cp, (blockPairs cs A).filter
        (fun cp => shortname (o cp.1 cp.2) = shortname (c, p)) = [cp] ∧ o cp.1 cp.2 = (c, p)) ↔
      CppApart cs ps A := by
  constructor
  · intro h
    have hown : ∀ c ∈ cs, ∀ p ∈ A, o c p = (c, p) := by
      intro c hc p hp
      obtain ⟨⟨c', p'⟩, hfilter, heq⟩ := h c hc p hp
      have hmem : (c', p') ∈ blockPairs cs A :=
        List.mem_of_mem_filter (hfilter ▸ List.mem_singleton_self _)
      obtain ⟨hc', hp'⟩ := mem_blockPairs.mp hmem
      have howner := ho c' hc' p' (hps p' hp')
      have hkey := (mem_of_owner howner).2
      rw [heq] at hkey howner
      have hself := ho c hc p (hps p hp)
      rw [hkey, howner] at hself
      exact (Option.some.inj hself).symm
    refine ⟨fun c hc p hp => hown c hc p hp ▸ ho c hc p (hps p hp), ?_⟩
    intro c hc p hp c' hc' p' hp' heq
    obtain ⟨cp, hfilter, -⟩ := h c hc p hp
    have h₁ := eq_of_filter_eq_singleton hfilter (mem_blockPairs.mpr ⟨hc, hp⟩)
      (by simp [hown c hc p hp])
    have h₂ := eq_of_filter_eq_singleton hfilter (mem_blockPairs.mpr ⟨hc', hp'⟩)
      (by simpa [hown c' hc' p' hp', shortname] using heq.symm)
    exact Prod.mk.inj (h₁.trans h₂.symm)
  · rintro ⟨hhidden, hshort⟩ c hc p hp
    have hown : ∀ c ∈ cs, ∀ p ∈ A, o c p = (c, p) := fun c hc p hp =>
      Option.some.inj ((ho c hc p (hps p hp)).symm.trans (hhidden c hc p hp))
    refine ⟨(c, p), filter_eq_singleton (nodup_blockPairs hcs hA) (mem_blockPairs.mpr ⟨hc, hp⟩)
      ?_, hown c hc p hp⟩
    rintro ⟨c', p'⟩ hmem
    obtain ⟨hc', hp'⟩ := mem_blockPairs.mp hmem
    rw [decide_eq_true_iff, hown c' hc' p' hp']
    constructor
    · intro heq
      obtain ⟨rfl, rfl⟩ := hshort c' hc' p' hp' c hc p hp heq
      rfl
    · rintro ⟨rfl, rfl⟩
      rfl

theorem configKey_native (c : Str) : configKey (some c) native = c := by
  simp [configKey]

/-- The same for the blocks of C# projects, which are found without a platform. A name that is
hidden is longer than the one that hides it, so a shortest one would be selected twice. -/
theorem csApart_iff (hcs : cs.Nodup) (hA : A ≠ [])
    (ho : ∀ c ∈ cs, owner (pairs cs ps) c = some (o c native))
    (hkeys : ∀ c ∈ cs, (o c native).2 ∈ platformKeys) :
    (∀ c ∈ cs, ∀ p ∈ A, ∃ d, cs.filter
        (fun d => Str.lower (o d native).1 <:+: shortname (c, p)) = [d] ∧ (o d native).1 = c) ↔
      CsApart cs ps A := by
  have hprefix : ∀ c p, Str.lower c <:+: shortname (c, p) := fun c p =>
    (List.prefix_append _ _).isInfix
  constructor
  · intro h
    obtain ⟨p₀, hp₀⟩ := List.exists_mem_of_ne_nil A hA
    have hown : ∀ n, ∀ c ∈ cs, c.length = n → o c native = (c, native) := by
      intro n
      induction n using Nat.strongRecOn with
      | ind n ih =>
          intro c hc hn
          obtain ⟨hmem, hkey⟩ := mem_of_owner (ho c hc)
          have hq := hkeys c hc
          generalize hdq : o c native = dq at hmem hkey hq ⊢
          obtain ⟨d, q⟩ := dq
          have hd := (mem_pairs.mp hmem).1
          by_cases hnative : q = native
          · subst hnative
            rw [configKey_native] at hkey
            exact congrArg (fun c => (c, native)) hkey
          · have hlen : d.length < c.length := by
              have hne : ∀ q ∈ platformKeys, q ≠ [] := by decide
              have hpos : 0 < q.length := List.length_pos_of_ne_nil (hne q hq)
              rw [← hkey, configKey, if_pos hnative, List.length_append]
              exact Nat.lt_add_of_pos_right hpos
            have hd' := ih d.length (hn ▸ hlen) d hd rfl
            obtain ⟨x, hfilter, -⟩ := h d hd p₀ hp₀
            have h₁ := eq_of_filter_eq_singleton hfilter hc (by simpa [hdq] using hprefix d p₀)
            have h₂ := eq_of_filter_eq_singleton hfilter hd (by simpa [hd'] using hprefix d p₀)
            rw [h₁, h₂] at hlen
            exact absurd hlen (Nat.lt_irrefl _)
    refine ⟨fun c hc => hown _ c hc rfl ▸ ho c hc, fun c hc p hp d hd hinfix => ?_⟩
    obtain ⟨x, hfilter, -⟩ := h c hc p hp
    have h₁ := eq_of_filter_eq_singleton hfilter hc
      (by simpa [hown _ c hc rfl] using hprefix c p)
    have h₂ := eq_of_filter_eq_singleton hfilter hd
      (by simpa [hown _ d hd rfl, shortname] using hinfix)
    exact h₂.trans h₁.symm
  · rintro ⟨hhidden, hinfix⟩ c hc p hp
    have hown : ∀ c ∈ cs, o c native = (c, native) := fun c hc =>
      Option.some.inj ((ho c hc).symm.trans (hhidden c hc))
    refine ⟨c, filter_eq_singleton hcs hc fun d hd => ?_, by rw [hown c hc]⟩
    rw [decide_eq_true_iff, hown d hd]
    constructor
    · exact hinfix c hc p hp d hd
    · rintro rfl
      exact hprefix _ _

end Apart

section Lookup

variable {cs ps : List Str} {configs : BakedConfigs}

/-- What is found in the configurations of a project: for every pair the configuration of
some pair, with its names. -/
structure Finds (cs ps : List Str) (configs : BakedConfigs) (f : Str → Str → BakedConfig)
    (o : Str → Str → Str × Str) : Prop where
  found : ∀ c ∈ cs, ∀ p ∈ pltnames ps,
    getconfig ps configs (some c) (some p) = some (f c p)
  owner : ∀ c ∈ cs, ∀ p ∈ pltnames ps,
    owner (pairs cs ps) (configKey (some c) p) = some (o c p)
  name : ∀ c ∈ cs, ∀ p ∈ pltnames ps, (f c p).name = some (o c p).1
  platform : ∀ c ∈ cs, ∀ p ∈ pltnames ps, (f c p).platform = (o c p).2
  shortname : ∀ c ∈ cs, ∀ p ∈ pltnames ps, (f c p).shortname = some (shortname (o c p))
  known : ∀ c ∈ cs, ∀ p ∈ pltnames ps, (o c p).2 ∈ platformKeys

theorem getconfigname_eq_ok {c p : Str} {name : Option Str}
    (h : getconfigname (some c) p true = .ok name) :
    p ∈ platformKeys ∧ name = some (shortname (c, p)) := by
  have hp : p ∈ platformKeys := by
    by_cases hnative : p = native
    · exact hnative ▸ native_mem_platformKeys
    · rw [getconfigname, if_pos rfl, shortSuffix, if_pos hnative] at h
      cases hplt : Puremake.platform p with
      | none =>
          rw [hplt] at h
          cases h
      | some plt => exact List.mem_map.mpr ⟨_, mem_of_lookup hplt, rfl⟩
  rw [getconfigname_short hp] at h
  exact ⟨hp, (Except.ok.inj h).symm⟩

theorem exists_finds (h : OwnedNames (pairs cs ps) configs) :
    ∃ f o, Finds cs ps configs f o := by
  have hall : ∀ c ∈ cs, ∀ p ∈ pltnames ps, ∃ cfg cp,
      getconfig ps configs (some c) (some p) = some cfg ∧
      owner (pairs cs ps) (configKey (some c) p) = some cp ∧ cfg.name = some cp.1 ∧
      cfg.platform = cp.2 ∧ cfg.shortname = some (shortname cp) ∧ cp.2 ∈ platformKeys := by
    intro c hc p hp
    obtain ⟨cp, hcp⟩ := exists_owner (mem_pairs.mpr ⟨hc, hp⟩)
    obtain ⟨cfg, hcfg, hname, hplt, hshort⟩ := h _ cp hcp
    obtain ⟨hkey, hshort⟩ := getconfigname_eq_ok hshort
    exact ⟨cfg, cp, (getconfig_eq_lookup hp (some c)).trans hcfg, hcp, hname, hplt, hshort, hkey⟩
  have : Nonempty BakedConfig :=
    ⟨⟨⟨⟨Fields.empty, none⟩, none, native⟩, none, none, [], [], none, none, none⟩⟩
  choose! f o hfound howner hname hplt hshort hkey using hall
  exact ⟨f, o, hfound, howner, hname, hplt, hshort, hkey⟩

variable {sln : Workspace} {prj : BakedProject} {f : Str → Str → BakedConfig}
  {o : Str → Str → Str × Str}

theorem eachconfig_eq {plt : Option Str} {g : Str → BakedConfig}
    (h : ∀ c ∈ sln.configurations,
      getconfig sln.obj.platformnames prj.configs (some c) plt = some (g c)) :
    eachconfig sln prj plt = sln.configurations.map g := by
  rw [eachconfig, List.map_congr_left h, List.takeWhile_eq_self_iff.mpr ?_]
  · simp
  · intro x hx
    obtain ⟨c, -, rfl⟩ := List.mem_map.mp hx
    rfl

theorem filter_map_eq_singleton_iff {α β : Type*} {l : List α} {g : α → β} {p : β → Bool}
    {P : β → Prop} : (∃ b, (l.map g).filter p = [b] ∧ P b) ↔
      ∃ a, l.filter (fun a => p (g a)) = [a] ∧ P (g a) := by
  rw [List.filter_map]
  constructor
  · rintro ⟨b, hb, hP⟩
    obtain ⟨a, ha, rfl⟩ := List.map_eq_singleton_iff.mp hb
    exact ⟨a, ha, hP⟩
  · rintro ⟨a, ha, hP⟩
    refine ⟨g a, ?_, hP⟩
    rw [show (p ∘ g) = fun a => p (g a) from rfl, ha]
    rfl

variable (hfinds : Finds sln.configurations sln.obj.platformnames prj.configs f o)
  (hplain : ∀ c ∈ sln.configurations, PlainText c) (mk : Make)

include hfinds

theorem make_cpp_eq : make_cpp sln prj = .ok
    ((blockPairs sln.configurations (platforms sln)).map fun cp =>
      (.ifeq (esc (shortname (o cp.1 cp.2))), f cp.1 cp.2)) := by
  have hA := (platforms_spec sln).2.2
  have hconfigs : ((platforms sln).flatMap fun p => eachconfig sln prj (some p)) =
      (blockPairs sln.configurations (platforms sln)).map fun cp => f cp.1 cp.2 := by
    rw [blockPairs, List.map_flatMap]
    refine List.flatMap_congr fun p hp => ?_
    rw [eachconfig_eq fun c hc => hfinds.found c hc p (hA p hp).1, List.map_map]
    rfl
  rw [make_cpp, hconfigs, List.mapM_map]
  refine mapM_of_forall fun cp hcp => ?_
  obtain ⟨hc, hp⟩ := mem_blockPairs.mp hcp
  simp only [Function.comp_apply, gmake_cpp_config,
    hfinds.shortname cp.1 hc cp.2 (hA cp.2 hp).1]

theorem make_csharp_eq : make_csharp sln prj = .ok
    (sln.configurations.map fun c =>
      (.findstring (esc (Str.lower (o c native).1)), f c native)) := by
  have hnative : native ∈ pltnames sln.obj.platformnames := mem_pltnames.mpr (.inl rfl)
  have hconfigs : eachconfig sln prj none = sln.configurations.map fun c => f c native := by
    refine eachconfig_eq fun c hc => ?_
    rw [← hfinds.found c hc native hnative, getconfig, getconfig]
    simp
  rw [make_csharp, hconfigs, List.mapM_map]
  refine mapM_of_forall fun c hc => ?_
  simp only [Function.comp_apply, gmake_cs_config, hfinds.name c hc native hnative]

include hplain

/-- The pair that is found under the key of another one has plain names. -/
theorem plainText_found {c p : Str} (hc : c ∈ sln.configurations)
    (hp : p ∈ pltnames sln.obj.platformnames) :
    PlainText (shortname (o c p)) ∧ PlainText (Str.lower (o c p).1) := by
  have hmem := (mem_of_owner (hfinds.owner c hc p hp)).1
  have hname := hplain _ (mem_pairs.mp hmem).1
  exact ⟨plainText_shortname hname (hfinds.known c hc p hp), plainText_lower hname⟩

theorem activates_cpp_iff {value : Str} (hvalue : PlainText value) {P : BakedConfig → Prop} :
    Activates mk value (make_cpp sln prj) P ↔
      ∃ cp, (blockPairs sln.configurations (platforms sln)).filter
        (fun cp => shortname (o cp.1 cp.2) = value) = [cp] ∧ P (f cp.1 cp.2) := by
  have hA := (platforms_spec sln).2.2
  rw [Activates, make_cpp_eq hfinds]
  simp only [Except.ok.injEq, exists_eq_left', filter_map_eq_singleton_iff]
  refine exists_congr fun cp => and_congr_left fun _ => ?_
  rw [List.filter_congr fun cp hcp => ?_]
  obtain ⟨hc, hp⟩ := mem_blockPairs.mp hcp
  have hplain := (plainText_found hfinds hplain hc (hA cp.2 hp).1).1
  rw [isActive, esc_plain hplain, Bool.eq_iff_iff, decide_eq_true_iff]
  exact mk.ifeq_plain _ _ hplain hvalue

theorem activates_csharp_iff {value : Str} (hvalue : PlainText value) {P : BakedConfig → Prop} :
    Activates mk value (make_csharp sln prj) P ↔
      ∃ d, sln.configurations.filter
        (fun d => Str.lower (o d native).1 <:+: value) = [d] ∧ P (f d native) := by
  rw [Activates, make_csharp_eq hfinds]
  simp only [Except.ok.injEq, exists_eq_left', filter_map_eq_singleton_iff]
  refine exists_congr fun d => and_congr_left fun _ => ?_
  rw [List.filter_congr fun d hd => ?_]
  have hplain := (plainText_found hfinds hplain hd (mem_pltnames.mpr (.inl rfl))).2
  rw [isActive, esc_plain hplain, Bool.eq_iff_iff, decide_eq_true_iff]
  exact mk.findstring_plain _ _ hplain hvalue

end Lookup

section Selects

variable {env : Env} {session : List Solution} {heap : Heap} {result : List BakedSolution}
  {sln : Workspace}

/-- The names of what is found are those of a pair exactly when this pair is found. -/
theorem Finds.names_iff {prj : BakedProject} {f : Str → Str → BakedConfig}
    {o : Str → Str → Str × Str}
    (h : Finds sln.configurations sln.obj.platformnames prj.configs f o) {c p c' p' : Str}
    (hc : c ∈ sln.configurations) (hp : p ∈ pltnames sln.obj.platformnames) :
    ((f c p).name = some c' ∧ (f c p).platform = p') ↔ o c p = (c', p') := by
  rw [h.name c hc p hp, h.platform c hc p hp, Option.some.injEq, Prod.ext_iff]

/-- The values that a solution makefile shows select one configuration in every project
exactly when no configuration is hidden, no short name is there twice, and, for C# projects,
no name of a configuration stands in the short name of another one. -/
theorem selects_iff (hbake : buildconfigs env session heap = .ok result)
    (hsln : sln.toBakedSolution ∈ result) (hnodup : sln.configurations.Nodup)
    (hplain : ∀ c ∈ sln.configurations, PlainText c) (mk : Make) :
    Selects mk sln ↔ NamesSelect sln := by
  obtain ⟨hne, hAnodup, hA⟩ := platforms_spec sln
  have hnative : native ∈ pltnames sln.obj.platformnames := mem_pltnames.mpr (.inl rfl)
  have hfinds : ∀ prj ∈ sln.projects, ∃ f o,
      Finds sln.configurations sln.obj.platformnames prj.configs f o := by
    intro prj hprj
    obtain ⟨cs, hcs, howned⟩ := ownedNames_buildconfigs hbake hsln hprj
    have heq : sln.configurations = cs := by rw [Workspace.configurations, hcs]; rfl
    exact exists_finds (heq ▸ howned)
  have hvalue : ∀ c ∈ sln.configurations, ∀ p ∈ platforms sln, PlainText (shortname (c, p)) :=
    fun c hc p hp => plainText_shortname (hplain c hc) (hA p hp).2
  have hshown : ∀ c, ∀ p ∈ platforms sln, ∀ value,
      advertised c p = .ok (some value) ↔ value = shortname (c, p) := by
    intro c p hp value
    rw [advertised, getconfigname_short (hA p hp).2, Except.ok.injEq, Option.some.injEq]
    exact eq_comm
  have hcpp : ∀ prj ∈ sln.projects, (∀ c ∈ sln.configurations, ∀ p ∈ platforms sln,
      Activates mk (shortname (c, p)) (make_cpp sln prj) fun cfg =>
        cfg.name = some c ∧ cfg.platform = p) ↔
      CppApart sln.configurations sln.obj.platformnames (platforms sln) := by
    intro prj hprj
    obtain ⟨f, o, hf⟩ := hfinds prj hprj
    rw [← cppApart_iff hnodup hAnodup (fun p hp => (hA p hp).1) hf.owner]
    refine forall₄_congr fun c hc p hp => ?_
    rw [activates_cpp_iff hf hplain mk (hvalue c hc p hp)]
    refine exists_congr fun cp => and_congr_right fun hfilter => ?_
    have hmem := mem_blockPairs.mp
      (List.mem_of_mem_filter (hfilter ▸ List.mem_singleton_self cp) : (cp.1, cp.2) ∈ _)
    exact hf.names_iff hmem.1 (hA _ hmem.2).1
  have hcs : ∀ prj ∈ sln.projects, (∀ c ∈ sln.configurations, ∀ p ∈ platforms sln,
      Activates mk (shortname (c, p)) (make_csharp sln prj) fun cfg => cfg.name = some c) ↔
      CsApart sln.configurations sln.obj.platformnames (platforms sln) := by
    intro prj hprj
    obtain ⟨f, o, hf⟩ := hfinds prj hprj
    rw [← csApart_iff hnodup hne
      (fun c hc => by rw [← hf.owner c hc native hnative, configKey_native])
      (fun c hc => hf.known c hc native hnative)]
    refine forall₄_congr fun c hc p hp => ?_
    rw [activates_csharp_iff hf hplain mk (hvalue c hc p hp)]
    refine exists_congr fun d => and_congr_right fun hfilter => ?_
    have hmem := List.mem_of_mem_filter (hfilter ▸ List.mem_singleton_self d)
    rw [hf.name d hmem native hnative, Option.some.injEq]
  constructor
  · intro h
    have hselect : ∀ prj ∈ sln.projects, ∀ c ∈ sln.configurations, ∀ p ∈ platforms sln,
        (iscppproject prj → Activates mk (shortname (c, p)) (make_cpp sln prj) fun cfg =>
          cfg.name = some c ∧ cfg.platform = p) ∧
        (isdotnetproject prj → Activates mk (shortname (c, p)) (make_csharp sln prj) fun cfg =>
          cfg.name = some c) := by
      intro prj hprj c hc p hp
      obtain ⟨value, hadvertised, hall⟩ := h c hc p hp
      rw [← (hshown c p hp value).mp hadvertised]
      exact hall prj hprj
    constructor
    · intro hhas
      obtain ⟨prj, hprj, hlang⟩ := List.any_eq_true.mp hhas
      exact (hcpp prj hprj).mp fun c hc p hp => (hselect prj hprj c hc p hp).1 hlang
    · intro hhas
      obtain ⟨prj, hprj, hlang⟩ := List.any_eq_true.mp hhas
      exact (hcs prj hprj).mp fun c hc p hp => (hselect prj hprj c hc p hp).2 hlang
  · rintro ⟨hcppApart, hcsApart⟩ c hc p hp
    refine ⟨_, (hshown c p hp _).mpr rfl, fun prj hprj => ⟨fun hlang => ?_, fun hlang => ?_⟩⟩
    · exact (hcpp prj hprj).mpr (hcppApart (List.any_eq_true.mpr ⟨prj, hprj, hlang⟩)) c hc p hp
    · exact (hcs prj hprj).mpr (hcsApart (List.any_eq_true.mpr ⟨prj, hprj, hlang⟩)) c hc p hp

end Selects

section Example

/-- A `make` that compares all texts as they are. -/
def literal : Make where
  ifeq text value := text = value
  findstring text value := text <:+: value
  ifeq_plain _ _ _ _ := decide_eq_true_iff
  findstring_plain _ _ _ _ := decide_eq_true_iff

def languageProject (name language : String) (addr : ℕ) : Project where
  name := name.toList
  usage := false
  obj := Container.ofBlock ((Fields.empty.set .language language.toList).set .basedir
    "/home".toList) (configuration addr [])

def languageSession (cs ps : List String) : List Solution :=
  [{ obj := namedSolution cs ps
     projects := [languageProject "App" "C++" 1, languageProject "Tool" "C#" 2] }]

def languageHeap (cs ps : List String) : Heap :=
  initialHeap ((languageSession cs ps).flatMap fun sln =>
    sln.obj.blocks ++ sln.projects.flatMap (·.obj.blocks))

theorem selects_debug_release : ∃ b,
    buildconfigs .gmake (languageSession ["Debug", "Release"] ["x32"])
      (languageHeap ["Debug", "Release"] ["x32"]) = .ok [b] ∧
      Selects literal ⟨b, "All".toList⟩ := by
  obtain ⟨b, hbake, hnodup, hplain, hnames⟩ : ∃ b,
      buildconfigs .gmake (languageSession ["Debug", "Release"] ["x32"])
        (languageHeap ["Debug", "Release"] ["x32"]) = .ok [b] ∧
        (Workspace.mk b "All".toList).configurations.Nodup ∧
        (∀ c ∈ (Workspace.mk b "All".toList).configurations, PlainText c) ∧
        NamesSelect ⟨b, "All".toList⟩ := ⟨_, rfl, by decide, by decide, by decide⟩
  exact ⟨b, hbake, (selects_iff hbake List.mem_cons_self hnodup hplain literal).mpr hnames⟩

/-- With `config=debugdll` the block of `Debug` is active as well. -/
theorem not_selects_debugdll : ∃ b,
    buildconfigs .gmake (languageSession ["Debug", "DebugDLL"] [])
      (languageHeap ["Debug", "DebugDLL"] []) = .ok [b] ∧
      ¬ Selects literal ⟨b, "All".toList⟩ := by
  obtain ⟨b, hbake, hconfig, hplatform, hshown, prj, hprj, hlang, htwo⟩ : ∃ b,
      buildconfigs .gmake (languageSession ["Debug", "DebugDLL"] [])
        (languageHeap ["Debug", "DebugDLL"] []) = .ok [b] ∧
        "DebugDLL".toList ∈ (Workspace.mk b "All".toList).configurations ∧
        native ∈ platforms ⟨b, "All".toList⟩ ∧
        advertised "DebugDLL".toList native = .ok (some "debugdll".toList) ∧
        ∃ prj ∈ b.projects, isdotnetproject prj ∧
          (make_csharp ⟨b, "All".toList⟩ prj).map (fun bs =>
            (bs.filter fun x => literal.isActive "debugdll".toList x.1).length) = .ok 2 :=
    ⟨_, rfl, by decide, by decide, by decide, _, List.mem_cons_of_mem _ List.mem_cons_self,
      by decide, by decide⟩
  refine ⟨b, hbake, fun h => ?_⟩
  obtain ⟨value, hvalue, hall⟩ := h _ hconfig _ hplatform
  obtain rfl := Option.some.inj (Except.ok.inj (hshown.symm.trans hvalue))
  obtain ⟨bs, hbs, x, hx, -⟩ := (hall prj hprj).2 hlang
  rw [hbs, Except.map, hx] at htwo
  cases htwo

end Example

end Make

end Puremake
