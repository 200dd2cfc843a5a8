import Puremake.Lua.Str
import Mathlib.Data.List.Perm.Basic

/-!
# Lua tables

A table with keys is a list of its entries, at most one for a key when it is
built by `assign`; looking up a key is `List.lookup`. The order in which
`pairs` enumerates the entries is not specified by the language, so everything
that calls `pairs` takes a `PairsOrder`: some rearrangement of the entries,
about which nothing else is known.
-/

namespace Puremake

/-- An order of enumeration for `pairs`. -/
structure PairsOrder where
  enum : ∀ {α : Type}, List α → List α
  perm : ∀ {α : Type} (l : List α), (enum l).Perm l

def PairsOrder.insertion : PairsOrder := ⟨id, fun _ => .rfl⟩

@[simp] theorem PairsOrder.mem_enum {α : Type} (ord : PairsOrder) {l : List α} {x : α} :
    x ∈ ord.enum l ↔ x ∈ l :=
  (ord.perm l).mem_iff

/-- The assignment `tbl[key] = v`. -/
def assign {κ α : Type*} [BEq κ] (key : κ) (v : α) : List (κ × α) → List (κ × α)
  | [] => [(key, v)]
  | (k, w) :: tbl => if k == key then (k, v) :: tbl else (k, w) :: assign key v tbl

section Assign

variable {κ α : Type*} [BEq κ] [LawfulBEq κ]

theorem lookup_cons_of_ne {k key : κ} (h : k ≠ key) (v : α) (tbl : List (κ × α)) :
    ((key, v) :: tbl).lookup k = tbl.lookup k := by
  rw [List.lookup_cons, beq_eq_false_iff_ne.mpr h]

@[simp] theorem lookup_assign_self (key : κ) (v : α) (tbl : List (κ × α)) :
    (assign key v tbl).lookup key = some v := by
  induction tbl with
  | nil => simp [assign]
  | cons e tbl ih =>
      obtain ⟨k, w⟩ := e
      rw [assign]
      split
      · rename_i h
        simp [eq_of_beq h]
      · rename_i h
        rw [lookup_cons_of_ne (fun heq => h (beq_iff_eq.mpr heq.symm)), ih]

theorem lookup_assign_of_ne {k key : κ} (h : k ≠ key) (v : α) (tbl : List (κ × α)) :
    (assign key v tbl).lookup k = tbl.lookup k := by
  induction tbl with
  | nil => rw [assign, lookup_cons_of_ne h]
  | cons e tbl ih =>
      obtain ⟨k', w⟩ := e
      rw [assign]
      split
      · rename_i he
        obtain rfl := eq_of_beq he
        rw [lookup_cons_of_ne h, lookup_cons_of_ne h]
      · rw [List.lookup_cons, List.lookup_cons, ih]

theorem assign_eq_self {key : κ} {v : α} {tbl : List (κ × α)}
    (h : tbl.lookup key = some v) : assign key v tbl = tbl := by
  induction tbl with
  | nil => simp at h
  | cons e tbl ih =>
      obtain ⟨k, w⟩ := e
      rw [assign]
      split
      · rename_i hk
        rw [eq_of_beq hk, List.lookup_cons_self] at h
        rw [Option.some.inj h]
      · rename_i hk
        rw [lookup_cons_of_ne fun heq => hk (beq_iff_eq.mpr heq.symm)] at h
        rw [ih h]

theorem mem_keys_assign {k key : κ} {v : α} {tbl : List (κ × α)} :
    k ∈ (assign key v tbl).map Prod.fst ↔ k = key ∨ k ∈ tbl.map Prod.fst := by
  induction tbl with
  | nil => simp [assign]
  | cons e tbl ih =>
      rw [assign]
      split
      · rename_i h
        simp only [List.map_cons, List.mem_cons, eq_of_beq h]
        tauto
      · rw [List.map_cons, List.map_cons, List.mem_cons, List.mem_cons, ih]
        tauto

theorem mem_of_mem_assign {key : κ} {v : α} {tbl : List (κ × α)} {e : κ × α}
    (h : e ∈ assign key v tbl) : e = (key, v) ∨ e ∈ tbl := by
  induction tbl with
  | nil => simp_all [assign]
  | cons e' tbl ih =>
      rw [assign] at h
      split at h
      · rename_i hkey
        rcases List.mem_cons.mp h with rfl | h
        · exact Or.inl (by rw [eq_of_beq hkey])
        · exact Or.inr (by simp [h])
      · rcases List.mem_cons.mp h with rfl | h
        · exact Or.inr (by simp)
        · exact (ih h).imp_right fun h => by simp [h]

/-- A table that is built by assignments has one entry for a key. -/
theorem nodup_keys_assign {key : κ} {v : α} {tbl : List (κ × α)}
    (h : (tbl.map Prod.fst).Nodup) : ((assign key v tbl).map Prod.fst).Nodup := by
  induction tbl with
  | nil => simp [assign]
  | cons e tbl ih =>
      rw [List.map_cons, List.nodup_cons] at h
      rw [assign]
      split
      · simpa using h
      · rename_i hne
        rw [List.map_cons, List.nodup_cons, mem_keys_assign]
        refine ⟨?_, ih h.2⟩
        rintro (heq | hmem)
        · exact hne (beq_iff_eq.mpr heq)
        · exact h.1 hmem

end Assign

section Lookup

variable {κ α : Type*} [BEq κ] [LawfulBEq κ]

theorem mem_of_lookup {tbl : List (κ × α)} {k : κ} {v : α} (h : tbl.lookup k = some v) :
    (k, v) ∈ tbl := by
  obtain ⟨l₁, l₂, rfl, -⟩ := List.lookup_eq_some_iff.mp h
  simp

theorem lookup_isSome_iff_mem_keys {tbl : List (κ × α)} {k : κ} :
    (tbl.lookup k).isSome ↔ k ∈ tbl.map Prod.fst := by
  rw [List.lookup_isSome_iff, List.mem_map]
  constructor
  · rintro ⟨e, he, hk⟩
    exact ⟨e, he, (eq_of_beq hk).symm⟩
  · rintro ⟨e, he, rfl⟩
    exact ⟨e, he, BEq.rfl⟩

theorem lookup_eq_some_iff_mem {tbl : List (κ × α)} (h : (tbl.map Prod.fst).Nodup) {k : κ}
    {v : α} : tbl.lookup k = some v ↔ (k, v) ∈ tbl := by
  induction tbl with
  | nil => simp
  | cons e tbl ih =>
      obtain ⟨k', w⟩ := e
      rw [List.map_cons, List.nodup_cons] at h
      by_cases hk : k = k'
      · subst hk
        have hnot : (k, v) ∉ tbl := fun hmem =>
          h.1 (List.mem_map.mpr ⟨(k, v), hmem, rfl⟩)
        simp [hnot, eq_comm]
      · rw [lookup_cons_of_ne hk, ih h.2]
        simp [hk]

theorem lookup_foldl_assign {tbl : List (κ × α)} {l : List (κ × α)} (h : (l.map Prod.fst).Nodup)
    {k : κ} {v : α} : (l.foldl (fun tbl e => assign e.1 e.2 tbl) tbl).lookup k = some v ↔
      (k, v) ∈ l ∨ k ∉ l.map Prod.fst ∧ tbl.lookup k = some v := by
  induction l generalizing tbl with
  | nil => simp
  | cons e l ih =>
      obtain ⟨k', w⟩ := e
      rw [List.map_cons, List.nodup_cons] at h
      rw [List.foldl_cons, ih h.2]
      by_cases hk : k = k'
      · subst hk
        have hnot : (k, v) ∉ l := fun hmem => h.1 (List.mem_map.mpr ⟨(k, v), hmem, rfl⟩)
        have hkeys : ∀ x, (k, x) ∉ l := fun x hmem => h.1 (List.mem_map.mpr ⟨(k, x), hmem, rfl⟩)
        simp [hnot, hkeys, eq_comm]
      · rw [lookup_assign_of_ne hk]
        simp [hk]

/-- The order of `pairs` does not matter where every key is there once. -/
theorem PairsOrder.lookup_enum {κ α : Type} [BEq κ] [LawfulBEq κ] (ord : PairsOrder)
    {tbl : List (κ × α)} (h : (tbl.map Prod.fst).Nodup) (k : κ) :
    (ord.enum tbl).lookup k = tbl.lookup k := by
  have hperm := ord.perm tbl
  have hnodup : ((ord.enum tbl).map Prod.fst).Nodup :=
    (hperm.map Prod.fst).nodup_iff.mpr h
  refine Option.ext fun v => ?_
  rw [lookup_eq_some_iff_mem hnodup, lookup_eq_some_iff_mem h, hperm.mem_iff]

end Lookup

end Puremake
