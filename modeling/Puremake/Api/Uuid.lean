import Puremake.Lua.Explode
import Puremake.Lua.Pattern
import Puremake.Lua.Table

/-!
# The field `uuid`

The check of the field looks at the length, at the class of every character and at the four
places of the hyphens. The class has the hyphen in it, so that a hyphen passes for a digit.
-/

namespace Puremake

/-- `s:upper()` in the C locale. -/
def Str.upper (s : Str) : Str := s.map Char.toUpper

namespace Uuid

open Lua

/-- The class of characters in `premake.fields.uuid.allowed`. -/
def uuidClass : Str := "[ABCDEFabcdef0123456789-]".toList

/-- The loop over the characters in `premake.fields.uuid.allowed`. -/
def checkChar (value : Str) (ok : Bool) (i : ℕ) : Except PatternError Bool := do
  let ch := sub value i i
  let found ← find uuidClass ch
  .ok (if found.isNone then false else ok)

/-- `premake.fields.uuid.allowed`: the value and the message that it returns. -/
def allowed (value : Str) : Except PatternError (Option Str × Option Str) := do
  let ok := true
  let ok := if value.length ≠ 36 then false else ok
  let ok ← (List.range' 1 36).foldlM (checkChar value) ok
  let ok := if sub value 9 9 ≠ ['-'] then false else ok
  let ok := if sub value 14 14 ≠ ['-'] then false else ok
  let ok := if sub value 19 19 ≠ ['-'] then false else ok
  let ok := if sub value 24 24 ≠ ['-'] then false else ok
  if ok = false then .ok (none, some "invalid UUID".toList) else .ok (some value.upper, none)

/-- `premake.checkvalue`, for a check that is a function. -/
def checkvalue (value : Str)
    (allowed : Str → Except PatternError (Option Str × Option Str)) :
    Except PatternError (Option Str × Option Str) :=
  allowed value

/-- The errors of `premake.setstring`. -/
inductive SetError
  | pattern (err : PatternError)
  | message (err : Str)
  deriving DecidableEq, Repr

/-- `premake.getobject("container")` -/
def getobject (CurrentContainer : Option (List (Str × Str))) :
    Except SetError (List (Str × Str)) :=
  match CurrentContainer with
  | some container => .ok container
  | none => .error (.message "no active solution or project".toList)

/-- `premake.setstring`: the container that is left, and the value returned. -/
def setstring (CurrentContainer : Option (List (Str × Str))) (fieldname : Str)
    (value : Option Str) (allowed : Str → Except PatternError (Option Str × Option Str)) :
    Except SetError (List (Str × Str) × Option Str) := do
  let container ← getobject CurrentContainer
  match value with
  | none => .ok (container, container.lookup fieldname)
  | some value =>
    match checkvalue value allowed with
    | .error err => .error (.pattern err)
    | .ok (none, err) => .error (.message (err.getD []))
    | .ok (some value, _) =>
      let container := assign fieldname value container
      .ok (container, container.lookup fieldname)

def hexDigits : Str := "ABCDEFabcdef0123456789".toList

/-- Groups of 8, 4, 4, 4 and 12 hexadecimal digits with single hyphens between them. -/
def IsUuid (value : Str) : Prop :=
  ∃ groups : List Str, groups.map List.length = [8, 4, 4, 4, 12] ∧
    (∀ g ∈ groups, ∀ c ∈ g, c ∈ hexDigits) ∧ value = ['-'].intercalate groups

/-- The check accepts the value exactly when it is a UUID; then its upper-case form is stored,
and it is accepted again as it is. Any other value is rejected without a Lua error. -/
structure CheckedExactly (value : Str) : Prop where
  accepted : IsUuid value → allowed value = .ok (some value.upper, none)
  again : IsUuid value → allowed value.upper = .ok (some value.upper, none)
  stored : IsUuid value → ∀ container,
    setstring (some container) "uuid".toList (some value) allowed =
      .ok (assign "uuid".toList value.upper container, some value.upper)
  rejected : ¬ IsUuid value → allowed value = .ok (none, some "invalid UUID".toList)

/-- Thirty-six hexadecimal digits and hyphens, with hyphens behind the groups. -/
structure HasShape (value : Str) : Prop where
  length : value.length = 36
  digits : ∀ c ∈ value, c ∈ hexDigits ∨ c = '-'
  hyphens : ∀ i ∈ [8, 13, 18, 23], value[i]? = some '-'

instance (value : Str) : Decidable (HasShape value) :=
  have : Decidable (∀ c ∈ value, c ∈ hexDigits ∨ c = '-') := List.decidableBAll _ value
  decidable_of_iff (value.length = 36 ∧ (∀ c ∈ value, c ∈ hexDigits ∨ c = '-') ∧
      ∀ i ∈ [8, 13, 18, 23], value[i]? = some '-')
    ⟨fun ⟨hlen, hdigits, hhyphens⟩ => ⟨hlen, hdigits, hhyphens⟩,
      fun h => ⟨h.length, h.digits, h.hyphens⟩⟩

section Allowed

variable {value : Str} {c : Char}

theorem sub_self (s : Str) (i : ℕ) : sub s (i + 1) (i + 1) = s[i]?.toList := by
  rw [sub, Nat.add_sub_cancel, List.drop_take, Nat.add_sub_cancel_left, List.take_one,
    List.head?_drop]

theorem setHas_hyphen {p : Str} (h : ∀ d ∈ p, d ≠ '%' ∧ d ≠ '-') (c : Char) :
    setHas c (p ++ ['-']) = decide (c ∈ p ∨ c = '-') := by
  induction p with
  | nil => simp [setHas]
  | cons a p ih =>
      have ha := (h a List.mem_cons_self).1
      have hstep : setHas c (a :: (p ++ ['-'])) = (decide (c = a) || setHas c (p ++ ['-'])) := by
        cases p with
        | nil => simp [setHas, ha]
        | cons b p =>
            have hb := (h b (by simp)).2
            simp [setHas, ha, hb]
      rw [List.cons_append, hstep, ih fun d hd => h d (List.mem_cons_of_mem a hd),
        ← Bool.decide_or]
      exact decide_eq_decide.mpr (by rw [List.mem_cons, or_assoc])

def passes (c : Char) : Bool := c ∈ hexDigits ∨ c = '-'

theorem find_uuidClass (c? : Option Char) :
    find uuidClass c?.toList = .ok (if c?.any passes then some (1, c?.toList) else none) := by
  have hclass : classEnd uuidClass =
      .ok (some (.set false (hexDigits ++ ['-']), [])) := by decide +kernel
  cases c? with
  | none => rfl
  | some c =>
      have hhas : (CharClass.set false (hexDigits ++ ['-'])).has c = passes c := by
        rw [CharClass.has, Bool.bne_false]
        exact setHas_hyphen (forall_mem_of_all (by decide)) c
      have hhere : matchHere uuidClass.length uuidClass [c] =
          .ok (if passes c then some [] else none) := by
        rw [show uuidClass.length = 24 + 1 from rfl, matchHere, hclass]
        show (if _ then _ else _) = _
        rw [hhas]
        cases passes c with
        | true => rfl
        | false => rfl
      rw [Option.toList_some, find, hhere, Option.any_some]
      cases passes c with
      | true => rfl
      | false => rfl

theorem checkChar_eq (value : Str) (ok : Bool) (i : ℕ) :
    checkChar value ok (i + 1) = .ok (ok && (value[i]?).any passes) := by
  rw [checkChar, sub_self, find_uuidClass]
  cases (value[i]?).any passes with
  | true =>
      rw [Bool.and_true]
      rfl
  | false =>
      rw [Bool.and_false]
      rfl

theorem foldlM_checkChar (value : Str) (ok : Bool) (n : ℕ) :
    (List.range' 1 n).foldlM (checkChar value) ok =
      .ok (ok && (List.range n).all fun i => (value[i]?).any passes) := by
  induction n with
  | zero => simp [pure, Except.pure]
  | succ n ih =>
      rw [List.range'_1_concat, List.foldlM_append, ih, Nat.add_comm 1 n]
      refine (bind_pure (checkChar value _ (n + 1))).trans ?_
      rw [checkChar_eq, Bool.and_assoc, List.range_succ, List.all_append, List.all_cons,
        List.all_nil, Bool.and_true]

theorem forall_mem_iff_places {n : ℕ} (hlen : value.length = n) (P : Char → Prop) :
    (∀ c ∈ value, P c) ↔ ∀ i < n, ∃ c ∈ value[i]?, P c := by
  subst hlen
  constructor
  · intro h i hi
    exact ⟨value[i], List.getElem?_eq_getElem hi, h _ (List.getElem_mem hi)⟩
  · intro h c hc
    obtain ⟨i, hi, rfl⟩ := List.mem_iff_getElem.mp hc
    obtain ⟨d, hd, hP⟩ := h i hi
    rw [List.getElem?_eq_getElem hi] at hd
    exact Option.some.inj hd ▸ hP

theorem sub_eq_singleton_iff (i : ℕ) (c : Char) :
    sub value (i + 1) (i + 1) = [c] ↔ value[i]? = some c := by
  rw [sub_self]
  cases value[i]? with
  | none => simp
  | some d => simp

theorem allowed_eq (value : Str) : allowed value =
    .ok (if HasShape value then (some value.upper, none)
      else (none, some "invalid UUID".toList)) := by
  have hshape : HasShape value ↔ value.length = 36 ∧
      (∀ i < 36, ∃ c ∈ value[i]?, c ∈ hexDigits ∨ c = '-') ∧ value[8]? = some '-' ∧
      value[13]? = some '-' ∧ value[18]? = some '-' ∧ value[23]? = some '-' := by
    constructor
    · rintro ⟨hlen, hdigits, hhyphens⟩
      exact ⟨hlen, (forall_mem_iff_places hlen _).mp hdigits, hhyphens 8 (by decide),
        hhyphens 13 (by decide), hhyphens 18 (by decide), hhyphens 23 (by decide)⟩
    · rintro ⟨hlen, hdigits, h₈, h₁₃, h₁₈, h₂₃⟩
      exact ⟨hlen, (forall_mem_iff_places hlen _).mpr hdigits, by simp [h₈, h₁₃, h₁₈, h₂₃]⟩
  rw [allowed, foldlM_checkChar]
  dsimp only [bind, Except.bind]
  simp only [ne_eq, Bool.if_false_left, sub_eq_singleton_iff]
  generalize hok : (!_ && _) = ok
  have hiff : ok = true ↔ HasShape value := by
    rw [← hok, hshape]
    simp only [Bool.and_eq_true, Bool.not_eq_true', decide_eq_false_iff_not, not_not,
      decide_eq_true_eq, and_true, List.all_eq_true, List.mem_range, Option.any_eq_true, passes]
    tauto
  by_cases h : HasShape value
  · rw [if_pos h, hiff.mpr h, if_neg Bool.true_eq_false.mp]
  · rw [if_neg h, Bool.eq_false_iff.mpr (mt hiff.mp h), if_pos rfl]

/-- The upper-case form of a digit is a digit, and its own upper-case form. -/
theorem toUpper_digit (h : c ∈ hexDigits ∨ c = '-') :
    (c.toUpper ∈ hexDigits ∨ c.toUpper = '-') ∧ c.toUpper.toUpper = c.toUpper := by
  rw [or_comm, ← List.mem_cons] at h
  exact @forall_mem_of_all ('-' :: hexDigits)
    (fun c => (c.toUpper ∈ hexDigits ∨ c.toUpper = '-') ∧ c.toUpper.toUpper = c.toUpper) _
    (by decide) c h

theorem hasShape_upper (h : HasShape value) : HasShape value.upper where
  length := (List.length_map _).trans h.length
  digits := by
    intro c hc
    obtain ⟨d, hd, rfl⟩ := List.mem_map.mp hc
    exact (toUpper_digit (h.digits d hd)).1
  hyphens := by
    intro i hi
    rw [Str.upper, List.getElem?_map, h.hyphens i hi]
    rfl

theorem upper_upper (h : HasShape value) : value.upper.upper = value.upper := by
  rw [Str.upper, Str.upper, List.map_map]
  exact List.map_congr_left fun c hc => (toUpper_digit (h.digits c hc)).2

theorem intercalate_groups (a b c d e : Str) : ['-'].intercalate [a, b, c, d, e] =
    a ++ '-' :: (b ++ '-' :: (c ++ '-' :: (d ++ '-' :: e))) := by
  simp [List.intercalate]

theorem getElem?_separator {a : Str} {n : ℕ} (ha : a.length = n) (x : Char) (s : Str) :
    (a ++ x :: s)[n]? = some x := by
  rw [List.getElem?_append_right ha.le, ha, Nat.sub_self, List.getElem?_cons_zero]

theorem getElem?_behind {a : Str} {n : ℕ} (ha : a.length = n) (x : Char) (s : Str) (k : ℕ) :
    (a ++ x :: s)[n + 1 + k]? = s[k]? := by
  rw [List.getElem?_append_right (by omega), ha, show n + 1 + k - n = k + 1 by omega,
    List.getElem?_cons_succ]

theorem drop_eq_of_getElem? {s : Str} {k n : ℕ} {x : Char} (h : s[k + n]? = some x) :
    s.drop k = (s.drop k).take n ++ x :: s.drop (k + n + 1) := by
  obtain ⟨hlt, hx⟩ := List.getElem?_eq_some_iff.mp h
  rw [← hx, ← List.drop_eq_getElem_cons hlt, ← List.drop_drop, List.take_append_drop]

/-- A UUID has the shape and no other hyphens than the ones behind the groups. -/
theorem isUuid_iff : IsUuid value ↔ HasShape value ∧ value.count '-' = 4 := by
  have hhyphen : '-' ∉ hexDigits := by decide
  constructor
  · rintro ⟨groups, hlens, hdigits, rfl⟩
    simp only [List.map_eq_cons_iff, List.map_eq_nil_iff] at hlens
    obtain ⟨a, _, rfl, ha, b, _, rfl, hb, c, _, rfl, hc, d, _, rfl, hd, e, _, rfl, he, rfl⟩ :=
      hlens
    rw [intercalate_groups]
    refine ⟨⟨?_, ?_, ?_⟩, ?_⟩
    · simp [ha, hb, hc, hd, he]
    · simp only [List.mem_append, List.mem_cons]
      rintro x (hx | rfl | hx | rfl | hx | rfl | hx | rfl | hx)
      any_goals exact .inr rfl
      all_goals exact .inl (hdigits _ (by simp) _ hx)
    · have h₁₃ : (a ++ '-' :: (b ++ '-' :: (c ++ '-' :: (d ++ '-' :: e))))[13]? = some '-' :=
        (getElem?_behind ha _ _ 4).trans (getElem?_separator hb _ _)
      have h₁₈ : (a ++ '-' :: (b ++ '-' :: (c ++ '-' :: (d ++ '-' :: e))))[18]? = some '-' :=
        (getElem?_behind ha _ _ 9).trans ((getElem?_behind hb _ _ 4).trans
          (getElem?_separator hc _ _))
      have h₂₃ : (a ++ '-' :: (b ++ '-' :: (c ++ '-' :: (d ++ '-' :: e))))[23]? = some '-' :=
        (getElem?_behind ha _ _ 14).trans ((getElem?_behind hb _ _ 9).trans
          ((getElem?_behind hc _ _ 4).trans (getElem?_separator hd _ _)))
      intro i hi
      simp only [List.mem_cons, List.not_mem_nil, or_false] at hi
      rcases hi with rfl | rfl | rfl | rfl
      exacts [getElem?_separator ha _ _, h₁₃, h₁₈, h₂₃]
    · have hzero : ∀ g ∈ [a, b, c, d, e], g.count '-' = 0 := fun g hg =>
        List.count_eq_zero_of_not_mem fun hmem => hhyphen (hdigits g hg _ hmem)
      simp only [List.count_append, List.count_cons_self, hzero a (by simp),
        hzero b (by simp), hzero c (by simp), hzero d (by simp), hzero e (by simp)]
  · rintro ⟨h, hcount⟩
    have hcut : value = ['-'].intercalate [value.take 8, (value.drop 9).take 4,
        (value.drop 14).take 4, (value.drop 19).take 4, value.drop 24] := by
      rw [intercalate_groups, ← drop_eq_of_getElem? (h.hyphens 23 (by decide)),
        ← drop_eq_of_getElem? (h.hyphens 18 (by decide)),
        ← drop_eq_of_getElem? (h.hyphens 13 (by decide))]
      exact drop_eq_of_getElem? (k := 0) (h.hyphens 8 (by decide))
    refine ⟨_, ?_, fun g hg c hc => ?_, hcut⟩
    · simp [h.length]
    · have hmem : c ∈ value := by
        simp only [List.mem_cons, List.not_mem_nil, or_false] at hg
        rcases hg with rfl | rfl | rfl | rfl | rfl
        · exact List.mem_of_mem_take hc
        · exact List.mem_of_mem_drop (List.mem_of_mem_take hc)
        · exact List.mem_of_mem_drop (List.mem_of_mem_take hc)
        · exact List.mem_of_mem_drop (List.mem_of_mem_take hc)
        · exact List.mem_of_mem_drop hc
      refine (h.digits c hmem).resolve_right ?_
      rintro rfl
      have hpos := List.count_pos_iff.mpr hc
      rw [hcut, intercalate_groups] at hcount
      simp only [List.count_append, List.count_cons_self] at hcount
      simp only [List.mem_cons, List.not_mem_nil, or_false] at hg
      rcases hg with rfl | rfl | rfl | rfl | rfl <;> omega

/-- The field accepts exactly the UUIDs, except for the values that have a hyphen where a digit
should be. -/
theorem checkedExactly_iff :
    CheckedExactly value ↔ ¬ (HasShape value ∧ value.count '-' ≠ 4) := by
  have hstored : HasShape value → ∀ container,
      setstring (some container) "uuid".toList (some value) allowed =
        .ok (assign "uuid".toList value.upper container, some value.upper) := by
    intro h container
    have hcheck : checkvalue value allowed = .ok (some value.upper, none) := by
      rw [checkvalue, allowed_eq, if_pos h]
    rw [setstring, getobject]
    dsimp only [bind, Except.bind]
    rw [hcheck]
    dsimp only
    rw [lookup_assign_self]
  constructor
  · rintro h ⟨hshape, hcount⟩
    have hnot : ¬ IsUuid value := fun huuid => hcount (isUuid_iff.mp huuid).2
    have heq := (h.rejected hnot).symm.trans (allowed_eq value)
    rw [if_pos hshape] at heq
    cases heq
  · intro h
    have hiff : IsUuid value ↔ HasShape value := by
      rw [isUuid_iff]
      exact and_iff_left_of_imp fun hshape => not_not.mp fun hcount => h ⟨hshape, hcount⟩
    exact
      { accepted := fun huuid => by rw [allowed_eq, if_pos (hiff.mp huuid)]
        again := fun huuid => by
          rw [allowed_eq, if_pos (hasShape_upper (hiff.mp huuid)), upper_upper (hiff.mp huuid)]
        stored := fun huuid => hstored (hiff.mp huuid)
        rejected := fun huuid => by rw [allowed_eq, if_neg (mt hiff.mpr huuid)] }

/-- Nothing but hyphens is accepted. -/
theorem not_checkedExactly_hyphens : ¬ CheckedExactly (List.replicate 36 '-') := by
  intro h
  have hnot : ¬ IsUuid (List.replicate 36 '-') := fun huuid =>
    absurd (isUuid_iff.mp huuid).2 (by decide)
  exact absurd (h.rejected hnot) (by decide)

end Allowed

end Uuid

end Puremake
