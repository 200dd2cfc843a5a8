import Puremake.Lua.Str
import Puremake.Split.Basic

/-!
# `string.explode` and `table.implode`

`explode` cuts a text at the occurrences of a separator, with positions in the text; `implode`
puts texts together again. Whether the separator comes first is decided by the text that has
been accumulated, so that empty items in front are passed over.
-/

namespace Puremake

namespace Lua

/-- `s:find(pattern, init, true)`; a position before the first character counts as the first. -/
def findPlain (s pattern : Str) (init : ℕ) : Option (ℕ × ℕ) :=
  (Split.cut pattern (s.drop (init - 1))).map fun p =>
    (init - 1 + p.1.length + 1, init - 1 + p.1.length + pattern.length)

/-- `s:sub(i, j)`, for positions that are not negative. -/
def sub (s : Str) (i j : ℕ) : Str := (s.take j).drop (i - 1)

/-- The loop in `string.explode`. -/
def explodeLoop (s pattern : Str) : ℕ → ℕ → List Str → Option (List Str)
  | 0, _, _ => none
  | fuel + 1, pos, arr =>
      match findPlain s pattern pos with
      | some (st, sp) => explodeLoop s pattern fuel (sp + 1) (arr ++ [sub s pos (st - 1)])
      | none => some (arr ++ [s.drop (pos - 1)])

/-- `string.explode(s, pattern, true)`; the result for an empty pattern is `false`. -/
def explode (fuel : ℕ) (s pattern : Str) : Option (Option (List Str)) :=
  if pattern = [] then some none else (explodeLoop s pattern fuel 0 []).map some

def implode (arr : List Str) (before after : Str) (between : Option Str) : Str :=
  arr.foldl (fun result v =>
    (if result ≠ [] then result ++ between.getD [] else result) ++ before ++ v ++ after) []

/-- `explode` comes to an end, none of the parts has the separator in it, and `implode` puts them
together again. -/
def Undone (s sep : Str) : Prop :=
  ∃ parts, (∃ fuel₀, ∀ fuel, fuel₀ ≤ fuel → explode fuel s sep = some (some parts)) ∧
    (∀ p ∈ parts, ¬ sep <:+: p) ∧ implode parts [] [] (some sep) = s

section Explode

variable {s sep : Str} {parts : List Str}

/-- A round of the loop stands behind some characters of the text. -/
theorem explodeLoop_eq {rest : Str} (h : Split.Parts sep rest parts) (pos : ℕ)
    (hrest : s.drop (pos - 1) = rest) (hpos : pos - 1 ≤ s.length) (arr : List Str) {fuel : ℕ}
    (hfuel : parts.length ≤ fuel) :
    explodeLoop s sep fuel pos arr = some (arr ++ parts) := by
  induction h generalizing pos arr fuel with
  | @last rest hcut =>
      obtain ⟨fuel, rfl⟩ := Nat.exists_eq_add_of_le' hfuel
      have hfind : findPlain s sep pos = none := by
        rw [findPlain, hrest, hcut]
        rfl
      rw [List.length_singleton, explodeLoop, hfind]
      dsimp only
      rw [hrest]
  | @cut rest u v ps hcut hv ih =>
      obtain ⟨fuel, rfl⟩ := Nat.exists_eq_add_of_le' hfuel
      have hfind : findPlain s sep pos =
          some (pos - 1 + u.length + 1, pos - 1 + u.length + sep.length) := by
        rw [findPlain, hrest, hcut]
        rfl
      have heq := Split.eq_of_cut hcut
      have hwhole : s = s.take (pos - 1) ++ (u ++ sep ++ v) := by
        rw [← heq, ← hrest, List.take_append_drop]
      have hlen : (s.take (pos - 1)).length = pos - 1 := by
        rw [List.length_take]
        exact Nat.min_eq_left hpos
      have hpart : sub s pos (pos - 1 + u.length) = u := by
        rw [sub, List.drop_take, hrest, heq, List.append_assoc, Nat.add_sub_cancel_left,
          List.take_left]
      have hbehind : s.drop (pos - 1 + u.length + sep.length) = v := by
        rw [Nat.add_assoc, ← List.drop_drop, hrest, heq, ← List.length_append, List.drop_left]
      have hle : pos - 1 + u.length + sep.length ≤ s.length := by
        rw [hwhole, List.length_append, hlen, List.length_append, List.length_append]
        omega
      rw [List.length_cons, ← Nat.add_assoc, explodeLoop, hfind]
      dsimp only
      rw [Nat.add_sub_cancel, hpart, ih _ hbehind hle _ (Nat.le_add_left _ _), List.append_assoc,
        List.singleton_append]

theorem explode_eq (hsep : sep ≠ []) (h : Split.Parts sep s parts) {fuel : ℕ}
    (hfuel : parts.length ≤ fuel) : explode fuel s sep = some (some parts) := by
  rw [explode, if_neg hsep, explodeLoop_eq h 0 rfl (Nat.zero_le _) [] hfuel]
  rfl

/-- Behind a text that is not empty, `implode` puts the separator in front of every item. -/
theorem foldl_implode (sep : Str) {r : Str} (hr : r ≠ []) (parts : List Str) :
    parts.foldl (fun result v =>
      (if result ≠ [] then result ++ (some sep).getD [] else result) ++ [] ++ v ++ []) r =
        r ++ parts.flatMap (sep ++ ·) := by
  induction parts generalizing r with
  | nil => exact (List.append_nil r).symm
  | cons p parts ih =>
      have hne : r ++ sep ++ p ≠ [] := by simp [hr]
      rw [List.foldl_cons, if_pos hr, List.append_nil, List.append_nil]
      exact (ih hne).trans (by simp)

theorem implode_cons_nil (sep : Str) (parts : List Str) :
    implode ([] :: parts) [] [] (some sep) = implode parts [] [] (some sep) := rfl

theorem implode_cons {p : Str} (hp : p ≠ []) (sep : Str) (parts : List Str) :
    implode (p :: parts) [] [] (some sep) = sep.intercalate (p :: parts) := by
  have hflat : ∀ (p : Str) (ps : List Str), sep.intercalate (p :: ps) =
      p ++ ps.flatMap (sep ++ ·) := by
    intro p ps
    induction ps generalizing p with
    | nil => simp
    | cons q ps ih => rw [List.intercalate_cons_cons, ih, List.flatMap_cons]; simp
  have hfirst : implode (p :: parts) [] [] (some sep) = parts.foldl (fun result v =>
      (if result ≠ [] then result ++ (some sep).getD [] else result) ++ [] ++ v ++ []) p := by
    rw [implode, List.foldl_cons]
    simp
  rw [hfirst, foldl_implode sep hp, hflat]

/-- `implode` loses what stands in front of the first item that is not empty. -/
theorem length_implode_le (sep : Str) (parts : List Str) :
    (implode parts [] [] (some sep)).length ≤ (sep.intercalate parts).length := by
  induction parts with
  | nil => exact Nat.le_refl _
  | cons p parts ih =>
      by_cases hp : p = []
      · subst hp
        rw [implode_cons_nil]
        refine ih.trans ?_
        cases parts with
        | nil => exact Nat.le_refl _
        | cons q parts =>
            rw [List.intercalate_cons_cons, List.length_append, List.length_append]
            exact Nat.le_add_left _ _
      · rw [implode_cons hp]

/-- Every text can be exploded at a separator, and it is put together again exactly when it does
not begin with the separator. -/
theorem undone_iff (hsep : sep ≠ []) : Undone s sep ↔ ¬ sep <+: s := by
  obtain ⟨parts, hparts⟩ := Split.exists_parts hsep s
  have hrun : ∀ fuel, parts.length ≤ fuel → explode fuel s sep = some (some parts) :=
    fun fuel hfuel => explode_eq hsep hparts hfuel
  have hundone : Undone s sep ↔ implode parts [] [] (some sep) = s := by
    constructor
    · rintro ⟨parts', ⟨fuel₀, hfuel₀⟩, -, himplode⟩
      have heq := (hrun _ (le_max_left _ _)).symm.trans (hfuel₀ (max parts.length fuel₀)
        (le_max_right _ _))
      obtain rfl := Option.some.inj (Option.some.inj heq)
      exact himplode
    · exact fun himplode => ⟨parts, ⟨parts.length, hrun⟩, hparts.not_infix hsep, himplode⟩
  rw [hundone, hparts.prefix_iff]
  obtain ⟨p, qs, rfl⟩ := List.exists_cons_of_ne_nil hparts.ne_nil
  have hs := hparts.intercalate
  by_cases hp : p = []
  · subst hp
    cases qs with
    | nil =>
        refine iff_of_true hs ?_
        rintro ⟨qs, hqs, heq⟩
        exact hqs (List.cons.inj heq).2.symm
    | cons q qs =>
        refine iff_of_false (fun himplode => ?_) (not_not_intro ⟨_, List.cons_ne_nil _ _, rfl⟩)
        have hle := length_implode_le sep (q :: qs)
        have hpos := List.length_pos_iff.mpr hsep
        rw [implode_cons_nil] at himplode
        rw [himplode, ← hs, List.intercalate_cons_cons, List.length_append,
          List.length_append] at hle
        omega
  · refine iff_of_true ((implode_cons hp sep qs).trans hs) ?_
    rintro ⟨qs', -, heq⟩
    exact hp (List.cons.inj heq).1

theorem undone_words : "/".toList ≠ [] ∧ Undone "a//b/".toList "/".toList :=
  ⟨by decide, (undone_iff (by decide)).mpr (by decide)⟩

/-- The separator in front is lost, since nothing has been accumulated when it is to be put
there. -/
theorem not_undone_slash :
    "/".toList ≠ [] ∧ ¬ Undone "/a".toList "/".toList := by
  refine ⟨by decide, ?_⟩
  rintro ⟨parts, ⟨fuel₀, hfuel₀⟩, -, himplode⟩
  have hrun : explode (max fuel₀ 2) "/a".toList "/".toList = some (some [[], "a".toList]) :=
    explode_eq (by decide) (.cut rfl (.last rfl)) (le_max_right _ _)
  obtain rfl := Option.some.inj (Option.some.inj
    ((hfuel₀ _ (le_max_left _ _)).symm.trans hrun))
  exact absurd himplode (by decide)

end Explode

end Lua

end Puremake
