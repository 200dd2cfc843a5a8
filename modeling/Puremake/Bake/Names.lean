import Puremake.Bake.Postprocess

/-!
# Is the lookup of configurations faithful?

Configurations are stored under their name followed by the name of the platform,
and the names that are shown to a user are put together in the same way. The
lookup is faithful, and the names are distinct, exactly when no configuration is
called like another one with a platform added at the end, in any of the three
ways in which the platform is written.
-/

namespace Puremake

open FoldRun

def cfgsuffix (pltname : Str) : Str := ((platform pltname).map Platform.cfgsuffix).getD []

/-- The lookup of every pair finds a configuration with the name and the platform
of the pair, and different pairs have different names, short and long. -/
def Faithful (cs ps : List Str) (cfgs : BakedConfigs) : Prop :=
  (∀ c ∈ cs, ∀ p ∈ pltnames ps,
      ∃ cfg ∈ getconfig ps cfgs (some c) (some p), cfg.name = some c ∧ cfg.platform = p) ∧
    ∀ c ∈ cs, ∀ p ∈ pltnames ps, ∀ c' ∈ cs, ∀ p' ∈ pltnames ps, (c, p) ≠ (c', p') →
      getconfigname (some c) p true ≠ getconfigname (some c') p' true ∧
        getconfigname (some c) p false ≠ getconfigname (some c') p' false

/-- No configuration is called like another one followed by a platform of the
list, plainly, behind a bar, or in lower case by the suffix; names that only
differ in case do not occur; and where the suffix of one platform ends in that
of another, no name is another one followed by the difference. -/
structure NamesApart (cs ps : List Str) : Prop where
  key : ∀ c ∈ cs, ∀ p ∈ ps, p ≠ native → c ++ p ∉ cs
  long : ∀ c ∈ cs, ∀ p ∈ ps, p ≠ native → c ++ '|' :: p ∉ cs
  lower : ∀ c ∈ cs, ∀ c' ∈ cs, Str.lower c = Str.lower c' → c = c'
  short : ∀ c ∈ cs, ∀ c' ∈ cs, ∀ p ∈ ps, p ≠ native →
    Str.lower c' ≠ Str.lower c ++ cfgsuffix p
  univ : ∀ c ∈ cs, ∀ c' ∈ cs,
    ("x32".toList ∈ ps ∧ "Universal32".toList ∈ ps) ∨
        ("x64".toList ∈ ps ∧ "Universal64".toList ∈ ps) →
      Str.lower c' ≠ Str.lower c ++ "univ".toList

section Suffixes

/-- The names that `premake.platforms` has. -/
def platformKeys : List Str := platforms.map Prod.fst

theorem native_mem_platformKeys : native ∈ platformKeys := by decide

theorem keySuffix_suffix : ∀ p ∈ platformKeys, ∀ p' ∈ platformKeys,
    (if p' ≠ native then p' else []) <:+ (if p ≠ native then p else []) →
      p' = p ∨ p' = native := by
  decide

theorem longSuffix_suffix : ∀ p ∈ platformKeys, ∀ p' ∈ platformKeys,
    longSuffix p' <:+ longSuffix p → p' = p ∨ p' = native := by
  decide

theorem cfgsuffix_suffix : ∀ p ∈ platformKeys, ∀ p' ∈ platformKeys,
    cfgsuffix p' <:+ cfgsuffix p → p' = p ∨ p' = native ∨
      (p' = "x32".toList ∧ p = "Universal32".toList) ∨
        (p' = "x64".toList ∧ p = "Universal64".toList) := by
  decide

theorem lower_cfgsuffix : ∀ p ∈ platformKeys, Str.lower (cfgsuffix p) = cfgsuffix p := by
  decide

theorem shortSuffix_eq : ∀ p ∈ platformKeys, shortSuffix p = .ok (cfgsuffix p) := by
  decide

theorem lower_append (s t : Str) : Str.lower (s ++ t) = Str.lower s ++ Str.lower t :=
  List.map_append

end Suffixes

section Apart

variable {cs ps : List Str}

def PairsApart {α : Type*} (cs ps : List Str) (write : Str → Str → α) : Prop :=
  ∀ c ∈ cs, ∀ p ∈ pltnames ps, ∀ c' ∈ cs, ∀ p' ∈ pltnames ps,
    write c p = write c' p' → c = c' ∧ p = p'

theorem mem_pltnames {p : Str} : p ∈ pltnames ps ↔ p = native ∨ (p ∈ ps ∧ p ≠ native) := by
  simp [pltnames]

theorem mem_platformKeys_of_mem (hps : ∀ p ∈ ps, p ∈ platformKeys) {p : Str}
    (hp : p ∈ pltnames ps) : p ∈ platformKeys := by
  rcases mem_pltnames.mp hp with rfl | ⟨hp, -⟩
  · exact native_mem_platformKeys
  · exact hps p hp

/-- When no suffix of a platform ends in another one, names with suffixes are
distinct exactly if no name is another one with a suffix. -/
theorem pairsApart_iff (suffix : Str → Str) (hnative : suffix native = [])
    (hsuffix : ∀ p ∈ platformKeys, ∀ p' ∈ platformKeys, suffix p' <:+ suffix p →
      p' = p ∨ p' = native)
    (hps : ∀ p ∈ ps, p ∈ platformKeys) :
    PairsApart cs ps (fun c p => c ++ suffix p) ↔
      ∀ c ∈ cs, ∀ p ∈ ps, p ≠ native → c ++ suffix p ∉ cs := by
  constructor
  · intro h c hc p hp hne hmem
    have hp' : p ∈ pltnames ps := mem_pltnames.mpr (Or.inr ⟨hp, hne⟩)
    exact hne (h c hc p hp' _ hmem native (mem_pltnames.mpr (Or.inl rfl))
      (by simp [hnative])).2
  · intro h
    have hstep : ∀ c ∈ cs, ∀ p ∈ pltnames ps, ∀ c' ∈ cs, ∀ p' ∈ pltnames ps, ∀ s,
        c' = c ++ s → suffix p = s ++ suffix p' → c = c' ∧ p = p' := by
      rintro c hc p hp c' hc' p' hp' s rfl heq
      rcases hsuffix p (mem_platformKeys_of_mem hps hp) p' (mem_platformKeys_of_mem hps hp')
        ⟨s, heq.symm⟩ with rfl | rfl
      · simp at heq
        simp [heq]
      · rw [hnative, List.append_nil] at heq
        rcases mem_pltnames.mp hp with rfl | ⟨hp, hne⟩
        · rw [← heq, hnative]
          simp
        · exact absurd (heq ▸ hc') (h c hc p hp hne)
    intro c hc p hp c' hc' p' hp' heq
    rcases List.append_eq_append_iff.mp heq with ⟨s, h₁, h₂⟩ | ⟨s, h₁, h₂⟩
    · exact hstep c hc p hp c' hc' p' hp' s h₁ h₂
    · obtain ⟨h₁, h₂⟩ := hstep c' hc' p' hp' c hc p hp s h₁ h₂
      exact ⟨h₁.symm, h₂.symm⟩

theorem configKey_apart_iff (hps : ∀ p ∈ ps, p ∈ platformKeys) :
    PairsApart cs ps (fun c p => configKey (some c) p) ↔
      ∀ c ∈ cs, ∀ p ∈ ps, p ≠ native → c ++ p ∉ cs := by
  refine (pairsApart_iff (fun p => if p ≠ native then p else []) ?_ keySuffix_suffix hps).trans ?_
  · simp
  · refine forall₅_congr fun c hc p hp hne => ?_
    simp [hne]

theorem longname_apart_iff (hps : ∀ p ∈ ps, p ∈ platformKeys) :
    PairsApart cs ps (fun c p => c ++ longSuffix p) ↔
      ∀ c ∈ cs, ∀ p ∈ ps, p ≠ native → c ++ '|' :: p ∉ cs := by
  refine (pairsApart_iff longSuffix ?_ longSuffix_suffix hps).trans ?_
  · simp [longSuffix]
  · refine forall₅_congr fun c hc p hp hne => ?_
    simp [longSuffix, hne]

theorem cfgsuffix_native : cfgsuffix native = [] := by decide

/-- What a clash of two short names comes from: equal names in lower case, or a
name that is another one with a suffix, or with the difference of two
suffixes. -/
theorem shortname_apart_iff (hps : ∀ p ∈ ps, p ∈ platformKeys) :
    PairsApart cs ps (fun c p => Str.lower c ++ cfgsuffix p) ↔
      (∀ c ∈ cs, ∀ c' ∈ cs, Str.lower c = Str.lower c' → c = c') ∧
      (∀ c ∈ cs, ∀ c' ∈ cs, ∀ p ∈ ps, p ≠ native →
        Str.lower c' ≠ Str.lower c ++ cfgsuffix p) ∧
      ∀ c ∈ cs, ∀ c' ∈ cs,
        ("x32".toList ∈ ps ∧ "Universal32".toList ∈ ps) ∨
            ("x64".toList ∈ ps ∧ "Universal64".toList ∈ ps) →
          Str.lower c' ≠ Str.lower c ++ "univ".toList := by
  have hnative : native ∈ pltnames ps := mem_pltnames.mpr (Or.inl rfl)
  constructor
  · intro h
    refine ⟨?_, ?_, ?_⟩
    · intro c hc c' hc' heq
      exact (h c hc native hnative c' hc' native hnative (by simp [heq])).1
    · intro c hc c' hc' p hp hne heq
      have hp' : p ∈ pltnames ps := mem_pltnames.mpr (Or.inr ⟨hp, hne⟩)
      exact hne (h c hc p hp' c' hc' native hnative (by simp [heq, cfgsuffix_native])).2
    · rintro c hc c' hc' (⟨h₁, h₂⟩ | ⟨h₁, h₂⟩) heq
      · have hwrite : Str.lower c ++ cfgsuffix "Universal32".toList =
            Str.lower c' ++ cfgsuffix "x32".toList := by
          rw [heq, List.append_assoc]
          rfl
        have hclash := h c hc _ (mem_pltnames.mpr (Or.inr ⟨h₂, by decide⟩)) c' hc' _
          (mem_pltnames.mpr (Or.inr ⟨h₁, by decide⟩)) hwrite
        exact absurd hclash.2 (by decide)
      · have hwrite : Str.lower c ++ cfgsuffix "Universal64".toList =
            Str.lower c' ++ cfgsuffix "x64".toList := by
          rw [heq, List.append_assoc]
          rfl
        have hclash := h c hc _ (mem_pltnames.mpr (Or.inr ⟨h₂, by decide⟩)) c' hc' _
          (mem_pltnames.mpr (Or.inr ⟨h₁, by decide⟩)) hwrite
        exact absurd hclash.2 (by decide)
  · rintro ⟨hlower, hshort, huniv⟩
    have hstep : ∀ c ∈ cs, ∀ p ∈ pltnames ps, ∀ c' ∈ cs, ∀ p' ∈ pltnames ps, ∀ s,
        Str.lower c' = Str.lower c ++ s → cfgsuffix p = s ++ cfgsuffix p' → c = c' ∧ p = p' := by
      intro c hc p hp c' hc' p' hp' s h₁ h₂
      rcases cfgsuffix_suffix p (mem_platformKeys_of_mem hps hp) p'
        (mem_platformKeys_of_mem hps hp') ⟨s, h₂.symm⟩ with
        rfl | rfl | ⟨rfl, rfl⟩ | ⟨rfl, rfl⟩
      · simp at h₂
        rw [h₂, List.append_nil] at h₁
        exact ⟨hlower c hc c' hc' h₁.symm, rfl⟩
      · rw [cfgsuffix_native, List.append_nil] at h₂
        rcases mem_pltnames.mp hp with rfl | ⟨hp, hne⟩
        · rw [← h₂, cfgsuffix_native, List.append_nil] at h₁
          exact ⟨hlower c hc c' hc' h₁.symm, rfl⟩
        · exact absurd (h₂ ▸ h₁) (hshort c hc c' hc' p hp hne)
      · have hs : s = "univ".toList :=
          (List.append_left_inj (cfgsuffix "x32".toList)).mp (h₂.symm.trans (by decide))
        have hx := mem_pltnames.mp hp'
        have hu := mem_pltnames.mp hp
        exact absurd (hs ▸ h₁) (huniv c hc c' hc'
          (Or.inl ⟨(hx.resolve_left (by decide)).1, (hu.resolve_left (by decide)).1⟩))
      · have hs : s = "univ".toList :=
          (List.append_left_inj (cfgsuffix "x64".toList)).mp (h₂.symm.trans (by decide))
        have hx := mem_pltnames.mp hp'
        have hu := mem_pltnames.mp hp
        exact absurd (hs ▸ h₁) (huniv c hc c' hc'
          (Or.inr ⟨(hx.resolve_left (by decide)).1, (hu.resolve_left (by decide)).1⟩))
    intro c hc p hp c' hc' p' hp' heq
    rcases List.append_eq_append_iff.mp heq with ⟨s, h₁, h₂⟩ | ⟨s, h₁, h₂⟩
    · exact hstep c hc p hp c' hc' p' hp' s h₁ h₂
    · obtain ⟨h₁, h₂⟩ := hstep c' hc' p' hp' c hc p hp s h₁ h₂
      exact ⟨h₁.symm, h₂.symm⟩

theorem namesApart_iff (hps : ∀ p ∈ ps, p ∈ platformKeys) :
    NamesApart cs ps ↔ PairsApart cs ps (fun c p => configKey (some c) p) ∧
      PairsApart cs ps (fun c p => Str.lower c ++ cfgsuffix p) ∧
      PairsApart cs ps (fun c p => c ++ longSuffix p) := by
  rw [configKey_apart_iff hps, longname_apart_iff hps, shortname_apart_iff hps]
  exact ⟨fun h => ⟨h.key, ⟨h.lower, h.short, h.univ⟩, h.long⟩,
    fun ⟨hkey, ⟨hlower, hshort, huniv⟩, hlong⟩ => ⟨hkey, hlong, hlower, hshort, huniv⟩⟩

end Apart

section Lookup

variable {env : Env} {sln prj : Container} {basis : Configs} {cs ps : List Str}

/-- Under the key of a pair stands a configuration that carries the names of a
pair with this key. -/
def NamedIn (cs ps : List Str) (cfgs : Configs) (c p : Str) : Prop :=
  ∃ cfg c' p', cfgs.lookup (configKey (some c) p) = some cfg ∧ cfg.name = some c' ∧
    cfg.platform = p' ∧ c' ∈ cs ∧ p' ∈ pltnames ps ∧
    configKey (some c') p' = configKey (some c) p

/-- A step of `collapse` enters the pair that it merges, and every pair that was
entered stays entered. -/
theorem collapseStep_named {c p : Str} (hc : c ∈ cs) (hp : p ∈ pltnames ps)
    {st st' : CollapseState} (h : collapseStep env prj basis (some c) st p = .ok st') :
    NamedIn cs ps st'.result c p ∧
      ∀ c₀ p₀, NamedIn cs ps st.result c₀ p₀ → NamedIn cs ps st'.result c₀ p₀ := by
  obtain ⟨g, t, cfg, hm, rfl⟩ := collapseStep_eq_ok.mp h
  obtain ⟨st, addr, -, -, -, -, rfl⟩ := merge_eq_ok.mp hm
  refine ⟨⟨_, c, p, lookup_assign_self _ _ _, rfl, rfl, hc, hp, rfl⟩, ?_⟩
  rintro c₀ p₀ ⟨cfg₀, c', p', hl, hname, hplt, hc', hp', hkey⟩
  by_cases heq : configKey (some c₀) p₀ = configKey (some c) p
  · rw [NamedIn, heq]
    exact ⟨_, c, p, lookup_assign_self _ _ _, rfl, rfl, hc, hp, rfl⟩
  · exact ⟨cfg₀, c', p', (lookup_assign_of_ne heq _ _).trans hl, hname, hplt, hc', hp', hkey⟩

theorem nodup_keys_collapseStep {cfgname : Option Str} {p : Str} {st st' : CollapseState}
    (h : collapseStep env prj basis cfgname st p = .ok st')
    (hnodup : (st.result.map Prod.fst).Nodup) : (st'.result.map Prod.fst).Nodup := by
  obtain ⟨g, t, cfg, -, rfl⟩ := collapseStep_eq_ok.mp h
  exact nodup_keys_assign hnodup

theorem collapseName_named {c : Str} (hc : c ∈ cs) {terms : Terms} {st st' : CollapseState}
    (h : collapseName env prj basis ps terms st c = .ok st')
    (hnodup : (st.result.map Prod.fst).Nodup) :
    (∀ c₀ p₀, NamedIn cs ps st.result c₀ p₀ → NamedIn cs ps st'.result c₀ p₀) ∧
      (∀ p ∈ pltnames ps, NamedIn cs ps st'.result c p) ∧
      (st'.result.map Prod.fst).Nodup := by
  refine foldlM_invariant (d := []) (s := { st with terms })
    (P := fun _ p => p ∈ pltnames ps ∧ True)
    (I := fun done (s : CollapseState) =>
      (∀ c₀ p₀, NamedIn cs ps st.result c₀ p₀ → NamedIn cs ps s.result c₀ p₀) ∧
      (∀ p ∈ done, NamedIn cs ps s.result c p) ∧ (s.result.map Prod.fst).Nodup) ?_
    ⟨fun _ _ h => h, by simp, hnodup⟩
    (Along.and_of_forall (along_of_forall (fun _ _ => trivial) _ _) fun _ hp => hp) h
  rintro done s p s' ⟨hold, hdone, hs⟩ ⟨hp, -⟩ hstep
  obtain ⟨hnew, hkeep⟩ := collapseStep_named hc hp hstep
  refine ⟨fun c₀ p₀ h => hkeep c₀ p₀ (hold c₀ p₀ h), ?_, nodup_keys_collapseStep hstep hs⟩
  intro p' hp'
  rcases List.mem_append.mp hp' with hp' | hp'
  · exact hkeep c p' (hdone p' hp')
  · obtain rfl := List.mem_singleton.mp hp'
    exact hnew

theorem collapse_named {heap h : Heap} {cfgs : Configs} (hcs : sln.configurations = some cs)
    (hrun : collapse env sln prj basis heap = .ok (h, cfgs)) :
    (∀ c ∈ cs, ∀ p ∈ pltnames sln.platformnames, NamedIn cs sln.platformnames cfgs c p) ∧
      (cfgs.map Prod.fst).Nodup := by
  obtain ⟨cs', root, st, hcs', hroot, hst, -, rfl⟩ := collapse_eq_ok.mp hrun
  obtain rfl := Option.some.inj (hcs.symm.trans hcs')
  refine foldlM_invariant (d := []) (P := fun _ c => c ∈ cs ∧ True)
    (I := fun done (s : CollapseState) =>
      (∀ c ∈ done, ∀ p ∈ pltnames sln.platformnames,
        NamedIn cs sln.platformnames s.result c p) ∧ (s.result.map Prod.fst).Nodup) ?_
    ⟨by simp, nodup_keys_collapseStep hroot (by simp)⟩
    (Along.and_of_forall (along_of_forall (fun _ _ => trivial) _ _) fun _ hc => hc) hst
  rintro done s c s' ⟨hdone, hs⟩ ⟨hc, -⟩ hname
  obtain ⟨hkeep, hnew, hs'⟩ := collapseName_named hc hname hs
  refine ⟨?_, hs'⟩
  intro c' hc' p hp
  rcases List.mem_append.mp hc' with hc' | hc'
  · exact hkeep c' p (hdone c' hc' p hp)
  · obtain rfl := List.mem_singleton.mp hc'
    exact hnew p hp

theorem postprocess_names {cfg : Config} {heap heap' : Heap} {baked : BakedConfig}
    (h : postprocess env prj cfg heap = .ok (heap', baked)) :
    baked.name = cfg.name ∧ baked.platform = cfg.platform := by
  obtain ⟨_, _, _, _, _, -, -, -, -, -, rfl⟩ := postprocess_eq_ok.mp h
  exact ⟨rfl, rfl⟩

theorem nodup_keys_bakeProject {heap h : Heap} {baked : BakedConfigs}
    (hcs : sln.configurations = some cs)
    (hbake : bakeProject env sln prj basis heap = .ok (h, baked)) :
    (baked.map Prod.fst).Nodup := by
  obtain ⟨g, cfgs, hcollapse, hpost⟩ := bakeProject_eq_ok hbake
  rw [keys_of_postprocessed hpost]
  exact ((env.ord.perm cfgs).map Prod.fst).nodup_iff.mpr (collapse_named hcs hcollapse).2

/-- A configuration that `collapse` stored is found, post-processed, under the
same key. -/
theorem lookup_baked {heap h : Heap} {baked : BakedConfigs}
    (hcs : sln.configurations = some cs)
    (hbake : bakeProject env sln prj basis heap = .ok (h, baked)) :
    ∃ g cfgs, collapse env sln prj basis heap = .ok (g, cfgs) ∧
      ∀ k cfg, cfgs.lookup k = some cfg →
        ∃ b, baked.lookup k = some b ∧ PostprocessedFrom env prj g (k, cfg) (k, b) := by
  have hnodup' := nodup_keys_bakeProject hcs hbake
  obtain ⟨g, cfgs, hcollapse, hpost⟩ := bakeProject_eq_ok hbake
  refine ⟨g, cfgs, hcollapse, ?_⟩
  have hnodup := (collapse_named hcs hcollapse).2
  intro k cfg hk
  rw [lookup_eq_some_iff_mem hnodup] at hk
  obtain ⟨⟨k', b⟩, hb, hR⟩ := FoldRun.exists_right_of_forall₂ hpost (env.ord.mem_enum.mpr hk)
  obtain rfl : k' = k := hR.1
  exact ⟨b, (lookup_eq_some_iff_mem hnodup').mpr hb, hR⟩

theorem getconfigname_short {c p : Str} (hp : p ∈ platformKeys) :
    getconfigname (some c) p true = .ok (some (Str.lower c ++ cfgsuffix p)) := by
  rw [getconfigname, if_pos rfl, shortSuffix_eq p hp]
  simp [Except.map, lower_append, lower_cfgsuffix p hp]

theorem faithful_iff_apart (hps : ∀ p ∈ ps, p ∈ platformKeys) {baked : BakedConfigs} :
    Faithful cs ps baked ↔
      (∀ c ∈ cs, ∀ p ∈ pltnames ps,
        ∃ cfg ∈ getconfig ps baked (some c) (some p), cfg.name = some c ∧ cfg.platform = p) ∧
      PairsApart cs ps (fun c p => Str.lower c ++ cfgsuffix p) ∧
      PairsApart cs ps (fun c p => c ++ longSuffix p) := by
  rw [Faithful]
  refine and_congr_right fun _ => ?_
  constructor
  · intro h
    constructor
    · intro c hc p hp c' hc' p' hp' heq
      by_contra hne
      refine (h c hc p hp c' hc' p' hp' fun hpair => hne (Prod.mk.inj hpair)).1 ?_
      rw [getconfigname_short (mem_platformKeys_of_mem hps hp),
        getconfigname_short (mem_platformKeys_of_mem hps hp')]
      exact congrArg (fun name => Except.ok (some name)) heq
    · intro c hc p hp c' hc' p' hp' heq
      by_contra hne
      refine (h c hc p hp c' hc' p' hp' fun hpair => hne (Prod.mk.inj hpair)).2 ?_
      exact congrArg (fun name => Except.ok (some name)) heq
  · rintro ⟨hshort, hlong⟩ c hc p hp c' hc' p' hp' hne
    constructor
    · intro heq
      rw [getconfigname_short (mem_platformKeys_of_mem hps hp),
        getconfigname_short (mem_platformKeys_of_mem hps hp')] at heq
      obtain ⟨rfl, rfl⟩ := hshort c hc p hp c' hc' p' hp'
        (Option.some.inj (Except.ok.inj heq))
      exact hne rfl
    · intro heq
      obtain ⟨rfl, rfl⟩ := hlong c hc p hp c' hc' p' hp'
        (Option.some.inj (Except.ok.inj heq))
      exact hne rfl

/-- Lookup and names are faithful exactly when no name is another one with a
platform added. -/
theorem faithful_iff {heap h : Heap} {baked : BakedConfigs} (hcs : sln.configurations = some cs)
    (hps : ∀ p ∈ sln.platformnames, p ∈ platformKeys)
    (hbake : bakeProject env sln prj basis heap = .ok (h, baked)) :
    Faithful cs sln.platformnames baked ↔ NamesApart cs sln.platformnames := by
  rw [namesApart_iff hps, faithful_iff_apart hps]
  obtain ⟨g, cfgs, hcollapse, hbaked⟩ := lookup_baked hcs hbake
  obtain ⟨hnamed, -⟩ := collapse_named hcs hcollapse
  refine and_congr_left fun _ => ?_
  constructor
  · intro h c hc p hp c' hc' p' hp' heq
    obtain ⟨cfg, hget, hname, hplt⟩ := h c hc p hp
    obtain ⟨cfg', hget', hname', hplt'⟩ := h c' hc' p' hp'
    rw [getconfig_eq_lookup hp] at hget
    rw [getconfig_eq_lookup hp', ← show configKey (some c) p = configKey (some c') p' from heq]
      at hget'
    obtain rfl := Option.mem_unique hget hget'
    exact ⟨Option.some.inj (hname.symm.trans hname'), hplt.symm.trans hplt'⟩
  · intro h c hc p hp
    obtain ⟨cfg, c', p', hl, hname, hplt, hc', hp', hkey⟩ := hnamed c hc p hp
    obtain ⟨rfl, rfl⟩ := h c' hc' p' hp' c hc p hp hkey
    obtain ⟨b, hb, -, g', g'', -, hpost⟩ := hbaked _ _ hl
    obtain ⟨hname', hplt'⟩ := postprocess_names hpost
    rw [getconfig_eq_lookup hp]
    exact ⟨b, hb, hname'.trans hname, hplt'.trans hplt⟩

end Lookup

section Example

/-- A solution with the configurations and platforms that are given, and a project
in it. -/
def namedSolution (cs ps : List String) : Container :=
  Container.ofBlock ((Fields.empty.set .configurations ⟨cs.map String.toList, []⟩).set .platforms
    ⟨ps.map String.toList, []⟩) (configuration 0 [])

def namedProject : Container := Container.ofBlock Fields.empty (configuration 1 [])

def bakeNamed (cs ps : List String) : Except BakeError (Heap × BakedConfigs) :=
  bakeBoth .gmake (namedSolution cs ps) namedProject
    (initialHeap [configuration 0 [], configuration 1 []])

instance (cs ps : List Str) (baked : BakedConfigs) : Decidable (Faithful cs ps baked) := by
  unfold Faithful
  infer_instance

theorem faithful_debug_release :
    ∃ h baked, bakeNamed ["Debug", "Release"] ["x32", "x64"] = .ok (h, baked) ∧
      Faithful ["Debug".toList, "Release".toList] ["x32".toList, "x64".toList] baked := by
  obtain ⟨h, baked, hbake⟩ :
      ∃ h baked, bakeNamed ["Debug", "Release"] ["x32", "x64"] = .ok (h, baked) := ⟨_, _, rfl⟩
  obtain ⟨⟨g, basis⟩, -, hproject⟩ := FoldRun.bind_eq_ok.mp hbake
  exact ⟨h, baked, hbake, (faithful_iff (by decide) (by decide) hproject).mpr
    ⟨by decide, by decide, by decide, by decide, by decide⟩⟩

/-- `Debug` on `x32` is overwritten by the native `Debugx32`. -/
theorem not_faithful_debugx32 :
    ∃ h baked, bakeNamed ["Debug", "Debugx32"] ["x32"] = .ok (h, baked) ∧
      ¬ Faithful ["Debug".toList, "Debugx32".toList] ["x32".toList] baked :=
  ⟨_, _, rfl, by decide⟩

end Example

end Puremake
