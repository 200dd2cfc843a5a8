import Puremake.Make.Selection

/-!
# `make.settings`

The raw settings of a configuration are printed line by line, each of them as the format of
`io.printf`. A format without arguments can be written with `%%` only, so that any other `%`
ends the generation, and `%%` itself comes out as one character.
-/

namespace Puremake

open FoldRun

namespace Make

/-- An error that Lua raises in `make.settings`. -/
inductive SettingsError
  /-- `string.format` has no argument for a `%`, or no option behind it. -/
  | badFormat
  /-- A platform that the tool has not got is indexed. -/
  | indexNil
  deriving DecidableEq, Repr

/-- `string.format(s)`, without further arguments. -/
def format : Str → Except SettingsError Str
  | [] => .ok []
  | '%' :: '%' :: s => (format s).map ('%' :: ·)
  | '%' :: _ => .error .badFormat
  | c :: s => (format s).map (c :: ·)

/-- `io.printf(msg)` behind the text that has been written. -/
def printf (eol out msg : Str) : Except SettingsError Str :=
  (format msg).map fun s => out ++ s ++ eol

/-- The `cfgsettings` of `premake.gcc.platforms`; the outer option is the platform itself. -/
def gccCfgsettings (platform : Str) : Option (Option Str) :=
  (gccPlatforms.lookup platform).map fun p =>
    if p = "WiiDev".toList then
      some ("  ifeq ($(strip $(DEVKITPPC)),)\n" ++
        "    $(error \"DEVKITPPC environment variable is not set\")'\n" ++
        "  endif\n" ++
        "  include $(DEVKITPPC)/wii_rules'").toList
    else none

/-- `make.settings`, with the platforms of gcc, behind the text that has been written. -/
def settings (eol platform : Str) (makesettings : List Str) (out : Str) :
    Except SettingsError Str := do
  let out ← makesettings.foldlM (printf eol) out
  match gccCfgsettings platform with
  | none => .error .indexNil
  | some none => .ok out
  | some (some toolsettings) => printf eol out toolsettings

def lines (eol : Str) (values : List Str) : Str := values.flatMap (· ++ eol)

/-- The settings are written as they are, one per line and in order, and behind them stand the
settings of the platform, if there are any. -/
def Verbatim (eol platform : Str) (makesettings : List Str) : Prop :=
  ∀ out, settings eol platform makesettings out =
    .ok (out ++ lines eol (makesettings ++ (gccCfgsettings platform).join.toList))

section Format

variable {v w : Str}

theorem format_of_notMem (h : '%' ∉ v) : format v = .ok v := by
  fun_induction format v with
  | case1 => rfl
  | case2 s ih => exact absurd List.mem_cons_self h
  | case3 s hs => exact absurd List.mem_cons_self h
  | case4 c s hc₂ hc ih =>
      rw [ih (List.not_mem_of_not_mem_cons h)]
      rfl

/-- A format is at least as long as what it stands for, and longer where it has a `%`. -/
theorem length_format (h : format v = .ok w) :
    w.length ≤ v.length ∧ (w.length = v.length → '%' ∉ v) := by
  fun_induction format v generalizing w with
  | case1 =>
      obtain rfl := Except.ok.inj h
      exact ⟨Nat.le_refl _, fun _ => List.not_mem_nil⟩
  | case2 s ih =>
      cases hs : format s with
      | error e =>
          rw [hs] at h
          cases h
      | ok t =>
          rw [hs] at h
          obtain rfl := Except.ok.inj h
          have hle := (ih hs).1
          simp only [List.length_cons]
          exact ⟨by omega, by omega⟩
  | case3 s hs => cases h
  | case4 c s hc₂ hc ih =>
      cases hs : format s with
      | error e =>
          rw [hs] at h
          cases h
      | ok t =>
          rw [hs] at h
          obtain rfl := Except.ok.inj h
          obtain ⟨hle, hplain⟩ := ih hs
          refine ⟨Nat.succ_le_succ hle, fun hlen hmem => ?_⟩
          rcases List.mem_cons.mp hmem with rfl | hmem
          · exact hc rfl
          · exact hplain (Nat.succ.inj hlen) hmem

end Format

section Settings

variable {eol platform out out' : Str} {values : List Str}

theorem foldlM_printf_of_forall (h : ∀ v ∈ values, '%' ∉ v) (out : Str) :
    values.foldlM (printf eol) out = .ok (out ++ lines eol values) := by
  induction values generalizing out with
  | nil => exact congrArg Except.ok (List.append_nil out).symm
  | cons v values ih =>
      have hv : printf eol out v = .ok (out ++ v ++ eol) := by
        rw [printf, format_of_notMem (h v List.mem_cons_self)]
        rfl
      rw [List.foldlM_cons, hv]
      refine (ih (fun u hu => h u (List.mem_cons_of_mem v hu)) _).trans ?_
      rw [lines, lines, List.flatMap_cons, List.append_assoc out, List.append_assoc out]

/-- What is printed is at most as long as the texts, one per line. -/
theorem length_foldlM_printf (h : values.foldlM (printf eol) out = .ok out') :
    out'.length ≤ (out ++ lines eol values).length ∧
      (out'.length = (out ++ lines eol values).length → ∀ v ∈ values, '%' ∉ v) := by
  induction values generalizing out with
  | nil =>
      obtain rfl := Except.ok.inj h
      rw [lines, List.flatMap_nil, List.append_nil]
      exact ⟨Nat.le_refl _, fun _ v hv => absurd hv List.not_mem_nil⟩
  | cons v values ih =>
      rw [List.foldlM_cons, printf] at h
      cases hv : format v with
      | error e =>
          rw [hv] at h
          cases h
      | ok w =>
          rw [hv] at h
          obtain ⟨hle, hplain⟩ := ih h
          obtain ⟨hlew, hplainw⟩ := length_format hv
          rw [lines, List.flatMap_cons, ← lines]
          simp only [List.length_append] at hle hplain ⊢
          refine ⟨by omega, fun hlen u hu => ?_⟩
          rcases List.mem_cons.mp hu with rfl | hu
          · exact hplainw (by omega)
          · exact hplain (by omega) u hu

theorem notMem_gccCfgsettings {text : Str} (h : gccCfgsettings platform = some (some text)) :
    '%' ∉ text := by
  obtain ⟨p, -, hp⟩ := Option.map_eq_some_iff.mp h
  split at hp
  · obtain rfl := Option.some.inj hp
    decide +kernel
  · cases hp

/-- The settings of the tool stand behind the ones of the configuration. -/
theorem settings_eq {tool : Option Str} (hcfg : gccCfgsettings platform = some tool) :
    settings eol platform values out =
      (values.foldlM (printf eol) out).map (· ++ lines eol tool.toList) := by
  rw [settings, hcfg]
  refine congrArg (values.foldlM (printf eol) out >>= ·) (funext fun out => ?_)
  cases tool with
  | none => exact congrArg Except.ok (List.append_nil out).symm
  | some text =>
      dsimp only
      rw [printf, format_of_notMem (notMem_gccCfgsettings hcfg), lines, Option.toList_some,
        List.flatMap_singleton, ← List.append_assoc]
      rfl

/-- The settings are written as they are exactly when the platform is one of the tool's, and no
setting has a `%` in it. -/
theorem verbatim_iff : Verbatim eol platform values ↔
    platform ∈ gccPlatforms.map Prod.fst ∧ ∀ v ∈ values, '%' ∉ v := by
  have hplatform : (gccCfgsettings platform).isSome ↔ platform ∈ gccPlatforms.map Prod.fst := by
    rw [gccCfgsettings, Option.isSome_map]
    exact lookup_isSome_iff_mem_keys
  rw [← hplatform]
  cases hcfg : gccCfgsettings platform with
  | none =>
      refine iff_of_false (fun h => ?_) (fun h => absurd h.1 Bool.false_ne_true)
      obtain ⟨out, -, htool⟩ := bind_eq_ok.mp (h [])
      rw [hcfg] at htool
      cases htool
  | some tool =>
      have happend : ∀ out, out ++ lines eol (values ++ (gccCfgsettings platform).join.toList) =
          out ++ lines eol values ++ lines eol tool.toList := by
        intro out
        rw [hcfg, lines, List.flatMap_append, ← List.append_assoc]
        rfl
      refine Iff.trans ?_ (and_iff_right rfl).symm
      constructor
      · intro h
        have hrun := h []
        rw [settings_eq hcfg, happend] at hrun
        cases hout : values.foldlM (printf eol) [] with
        | error e =>
            rw [hout] at hrun
            cases hrun
        | ok out =>
            rw [hout] at hrun
            have heq := List.append_cancel_right (Except.ok.inj hrun)
            exact (length_foldlM_printf hout).2 (congrArg List.length heq)
      · intro hplain out
        rw [settings_eq hcfg, foldlM_printf_of_forall hplain, happend]
        rfl

/-- A pattern rule ends the generation. -/
theorem not_verbatim_pattern : ¬ Verbatim "\n".toList "Native".toList ["%.o: %.c".toList] := by
  intro h
  exact absurd (h []) (by decide)

end Settings

end Make

end Puremake
