import Puremake.Bake.Lists
import Puremake.Lua.Listset
import Mathlib.Data.Rat.Defs

/-!
# Merging lists of values

A list in a script may hold numbers as well as strings, and `premake.setarray` stores them as
they are. `mergefield` keeps the list and the set of its items in one table, so that a number
that is an item is in the same place as a position of the list. What holds of strings alone,
that merging is an ordered union, holds of a list with numbers when each positive integer in it
is at its own position, or far behind the end.
-/

namespace Puremake

/-- The numbers of the language, as the keys of a table compare them. -/
inductive Number
  | finite (q : ℚ)
  | infinite (negative : Bool)
  | nan
  deriving DecidableEq, Repr

inductive Scalar
  | string (s : Str)
  | number (x : Number)
  deriving DecidableEq, Repr

namespace Scalar

open Listset Search

def index (n : ℕ) : Scalar := .number (.finite n)

theorem index_injective : Function.Injective index := by
  intro m n h
  injection h with h
  injection h with h
  exact Rat.natCast_inj.mp h

/-- One item of `mergefield`. There is nothing under the key NaN, and an assignment to it raises
an error. -/
def mergeitem (op : Length index) (tbl : List (Scalar × Scalar)) (item : Scalar) :
    Option (List (Scalar × Scalar)) :=
  if (tbl.lookup item).isSome then some tbl
  else if item = .number .nan then none
  else some (add op tbl item)

/-- `mergefield` for the kinds that are lists, and a source that was made by `premake.setarray` -/
def mergefield (op : Length index) (dest : Option (List (Scalar × Scalar))) (src : List Scalar) :
    Option (List (Scalar × Scalar)) :=
  src.foldlM (mergeitem op) (dest.getD [])

def mergeAll (op : Length index) (lists : List (List Scalar)) : Option (List (Scalar × Scalar)) :=
  lists.foldlM (fun tbl src => mergefield op (some tbl) src) []

/-- The lists are merged to their union in the order of the first occurrences, and merging any of
them again changes nothing. -/
def Unites (op : Length index) (lists : List (List Scalar)) : Prop :=
  ∃ tbl, mergeAll op lists = some tbl ∧ ipairs index tbl = fresh [] lists.flatten ∧
    ∀ src ∈ lists, mergefield op (some tbl) src = some tbl

/-- No item is NaN, and each positive integer is at its own position in the union, or is greater
than the length of the union by more than one and has only integers at their own positions
behind it. -/
def InPlace (lists : List (List Scalar)) : Prop :=
  .number .nan ∉ lists.flatten ∧ Separate index (fresh [] lists.flatten)

section Merge

variable {op : Length index} {tbl : List (Scalar × Scalar)} {items : List Scalar}
  {lists : List (List Scalar)}

theorem foldlM_mergeitem (h : .number .nan ∉ items) :
    items.foldlM (mergeitem op) tbl = some (items.foldl (add op) tbl) := by
  induction items generalizing tbl with
  | nil => rfl
  | cons item items ih =>
      rw [List.mem_cons, not_or] at h
      have hitem : mergeitem op tbl item = some (add op tbl item) := by
        rw [mergeitem, if_neg (Ne.symm h.1)]
        split
        · rename_i hsome
          rw [add, if_pos hsome]
        · rfl
      rw [List.foldlM_cons, hitem]
      exact ih h.2

theorem not_nan_of_mergeitem {item : Scalar} {t : List (Scalar × Scalar)}
    (hnan : tbl.lookup (.number .nan) = none) (h : mergeitem op tbl item = some t) :
    item ≠ .number .nan ∧ t.lookup (.number .nan) = none := by
  rw [mergeitem] at h
  split at h
  · rename_i hsome
    obtain rfl := Option.some.inj h
    refine ⟨?_, hnan⟩
    rintro rfl
    rw [hnan] at hsome
    cases hsome
  · split at h
    · cases h
    · rename_i hnone hne
      refine ⟨hne, ?_⟩
      rw [← Option.some.inj h, lookup_add, if_neg hnone, if_neg, hnan]
      rintro (heq | heq)
      · exact hne heq.symm
      · cases heq

theorem notMem_of_foldlM (hnan : tbl.lookup (.number .nan) = none) {t : List (Scalar × Scalar)}
    (h : items.foldlM (mergeitem op) tbl = some t) : .number .nan ∉ items := by
  induction items generalizing tbl with
  | nil => exact List.not_mem_nil
  | cons item items ih =>
      rw [List.foldlM_cons, Option.bind_eq_bind, Option.bind_eq_some_iff] at h
      obtain ⟨t', ht', h⟩ := h
      obtain ⟨hitem, hnan'⟩ := not_nan_of_mergeitem hnan ht'
      rw [List.mem_cons, not_or]
      exact ⟨hitem.symm, ih hnan' h⟩

theorem mergeAll_eq : mergeAll op lists = lists.flatten.foldlM (mergeitem op) [] := by
  have : ∀ tbl, lists.foldlM (fun tbl src => mergefield op (some tbl) src) tbl =
      lists.flatten.foldlM (mergeitem op) tbl := by
    induction lists with
    | nil => exact fun _ => rfl
    | cons src lists ih =>
        intro tbl
        rw [List.foldlM_cons, List.flatten_cons, List.foldlM_append]
        exact bind_congr ih
  exact this []

/-- Without NaN the merged list is the one that `Listset.add` makes, and merging again changes
nothing. -/
theorem unites_iff_ipairs (h : .number .nan ∉ lists.flatten) :
    Unites op lists ↔
      ipairs index (lists.flatten.foldl (add op) []) = fresh [] lists.flatten := by
  have hall := @foldlM_mergeitem op [] _ h
  rw [Unites, mergeAll_eq, hall]
  constructor
  · rintro ⟨tbl, htbl, hipairs, -⟩
    rw [Option.some.inj htbl, hipairs]
  · intro hipairs
    refine ⟨_, rfl, hipairs, fun src hsrc => ?_⟩
    have hsub : ∀ x ∈ src, x ∈ lists.flatten := fun x hx => List.mem_flatten_of_mem hsrc hx
    rw [mergefield, Option.getD_some, foldlM_mergeitem fun hx => h (hsub _ hx),
      foldl_add_eq_self fun x hx => isSome_lookup_foldl (Or.inl (hsub x hx))]

end Merge

/-- Merging is an ordered union under every length operator exactly when the items are in
place. -/
theorem unites_iff (lists : List (List Scalar)) :
    (∀ op : Length index, Unites op lists) ↔ InPlace lists := by
  rw [InPlace]
  by_cases hnan : .number .nan ∈ lists.flatten
  · refine iff_of_false (fun h => ?_) fun h => h.1 hnan
    obtain ⟨tbl, htbl, -⟩ := h (Length.first index_injective)
    rw [mergeAll_eq] at htbl
    exact notMem_of_foldlM rfl htbl hnan
  · rw [and_iff_right hnan, ← ipairs_foldl_iff index_injective]
    exact forall_congr' fun op => unites_iff_ipairs hnan

/-- The number 1 behind another item is taken for the item at the first position. -/
theorem not_unites_one : Nonempty (Length index) ∧ ∀ op : Length index,
    ¬ Unites op [[.string "a".toList], [.number (.finite 1)]] := by
  refine ⟨⟨Length.first index_injective⟩, fun op h => ?_⟩
  have hipairs := (unites_iff_ipairs (by decide)).mp h
  rw [foldl_add_fresh fun x hx => absurd hx List.not_mem_nil] at hipairs
  have hone := @eq_or_lt_of_ipairs _ _ _ index_injective op _ nodup_fresh hipairs 1 0 rfl
  exact absurd hone (by decide)

section Strings

variable {lists : List (List Str)}

def strings (l : List Str) : List Scalar := l.map .string

theorem inPlace_strings : InPlace (lists.map strings) := by
  have hflatten : (lists.map strings).flatten = strings lists.flatten := by
    rw [strings, List.map_flatten]
    rfl
  refine ⟨?_, fun p n hp => ?_⟩
  · rw [hflatten, strings, List.mem_map]
    rintro ⟨s, -, hs⟩
    cases hs
  · have hmem := (mem_fresh.mp (List.mem_of_getElem? hp)).1
    rw [hflatten, strings, List.mem_map] at hmem
    obtain ⟨s, -, hs⟩ := hmem
    cases hs

/-- For strings the list and the set can be kept apart, as `Tbl` does. -/
theorem exists_mergeAll_strings (op : Length index) : ∃ tbl,
    mergeAll op (lists.map strings) = some tbl ∧
      ipairs index tbl = strings (lists.flatten.foldl Tbl.add Tbl.empty).arr := by
  obtain ⟨tbl, htbl, hipairs, -⟩ := (unites_iff _).mpr inPlace_strings op
  refine ⟨tbl, htbl, ?_⟩
  have hflatten : (lists.map strings).flatten = strings lists.flatten := by
    rw [strings, List.map_flatten]
    rfl
  rw [hipairs, hflatten, Tbl.empty, foldl_add, strings, strings]
  have hinj : ∀ x ∈ [] ++ lists.flatten, ∀ y ∈ lists.flatten, string x = string y → x = y := by
    intro x _ y _ h
    injection h
  exact fresh_map hinj

end Strings

end Scalar

end Puremake
