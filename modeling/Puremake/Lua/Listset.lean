import Puremake.Lua.Table
import Puremake.Search.Basic
import Mathlib.Data.Finset.Max
import Mathlib.Data.Finset.Card

/-!
# A table that is a list and a set at once

Items are appended to a table and entered under their own names as well, so that an item which
is there is not appended again. The positions of the list and the items are keys of the same
table: `pos n` is the key of the position `n`, and may be an item. The length operator returns
some border of the table, a position with a value in front of one without, and there is more
than one when an item is a position beyond the end. The list is the union of the items, in the
order they were first met, for every choice of the borders exactly when each item that is a
position is its own, or lies beyond the end and is followed by items at their own positions only.
-/

namespace Puremake

namespace Listset

open Search

variable {α : Type*} [DecidableEq α] (pos : ℕ → α)

/-- What the length operator may return: nothing or a value stands at the border, and there is no
value behind it. -/
def IsBorder (t : List (α × α)) (n : ℕ) : Prop :=
  (n = 0 ∨ (t.lookup (pos n)).isSome) ∧ t.lookup (pos (n + 1)) = none

structure Length where
  len : List (α × α) → ℕ
  border : ∀ t, IsBorder pos t (len t)

variable {pos}

/-- `if not tbl[item] then table.insert(tbl, item); tbl[item] = item end` -/
def add (op : Length pos) (t : List (α × α)) (item : α) : List (α × α) :=
  if (t.lookup item).isSome then t
  else assign item item (assign (pos (op.len t + 1)) item t)

variable (pos)

/-- The values from a position on, up to the first position without one. -/
def ipairsFrom (t : List (α × α)) : ℕ → ℕ → List α
  | 0, _ => []
  | fuel + 1, n =>
    match t.lookup (pos n) with
    | none => []
    | some v => v :: ipairsFrom t fuel (n + 1)

/-- The values that `ipairs` enumerates. -/
def ipairs (t : List (α × α)) : List α := ipairsFrom pos t t.length 1

/-- Each item that is a position is its own, or lies beyond the end of the list and all the items
behind it are their own positions. -/
def Separate (u : List α) : Prop :=
  ∀ p n, u[p]? = some (pos (n + 1)) → n = p ∨
    u.length < n ∧ ∀ q, p < q → q < u.length → u[q]? = some (pos (q + 1))

variable {pos}

section Ipairs

variable {t : List (α × α)} {l : List α}

theorem exists_lookup_eq_none (hpos : Function.Injective pos) (t : List (α × α)) (n : ℕ) :
    ∃ i ≤ t.length, t.lookup (pos (n + i)) = none := by
  by_contra h
  push Not at h
  have hmem : ∀ i ∈ List.range (t.length + 1), pos (n + i) ∈ t.map Prod.fst := by
    intro i hi
    exact lookup_isSome_iff_mem_keys.mp (Option.isSome_iff_ne_none.mpr
      (h i (Nat.lt_succ_iff.mp (List.mem_range.mp hi))))
  have hnodup : ((List.range (t.length + 1)).map fun i => pos (n + i)).Nodup :=
    List.Nodup.map (fun i j hij => Nat.add_left_cancel (hpos hij)) List.nodup_range
  have hsub := (List.subperm_of_subset hnodup fun k hk => by
    obtain ⟨i, hi, rfl⟩ := List.mem_map.mp hk
    exact hmem i hi).length_le
  rw [List.length_map, List.length_range, List.length_map] at hsub
  omega

theorem ipairsFrom_eq_iff {fuel n : ℕ} (h : ∃ i ≤ fuel, t.lookup (pos (n + i)) = none) :
    ipairsFrom pos t fuel n = l ↔
      (∀ i < l.length, t.lookup (pos (n + i)) = l[i]?) ∧
        t.lookup (pos (n + l.length)) = none := by
  induction fuel generalizing n l with
  | zero =>
      obtain ⟨i, hi, hnone⟩ := h
      obtain rfl := Nat.le_zero.mp hi
      rw [ipairsFrom]
      constructor
      · rintro rfl
        exact ⟨fun i hi => absurd hi (Nat.not_lt_zero i), hnone⟩
      · rintro ⟨hall, -⟩
        cases l with
        | nil => rfl
        | cons v l => exact absurd (hnone.symm.trans (hall 0 (by simp))) (by simp)
  | succ fuel ih =>
      rw [ipairsFrom]
      cases hv : t.lookup (pos n) with
      | none =>
          constructor
          · rintro rfl
            exact ⟨fun i hi => absurd hi (Nat.not_lt_zero i), hv⟩
          · rintro ⟨hall, -⟩
            cases l with
            | nil => rfl
            | cons v l => exact absurd (hv.symm.trans (hall 0 (by simp))) (by simp)
      | some v =>
          have hrest : ∃ i ≤ fuel, t.lookup (pos (n + 1 + i)) = none := by
            obtain ⟨i, hi, hnone⟩ := h
            cases i with
            | zero => exact absurd (hv.symm.trans hnone) (by simp)
            | succ i => exact ⟨i, by omega, by rwa [Nat.add_right_comm n 1 i]⟩
          cases l with
          | nil => simp [hv]
          | cons w l =>
              rw [List.cons.injEq, ih hrest]
              constructor
              · rintro ⟨rfl, hall, hnone⟩
                refine ⟨fun i hi => ?_, by rwa [List.length_cons, ← Nat.add_assoc,
                  Nat.add_right_comm]⟩
                cases i with
                | zero => exact hv
                | succ i =>
                    rw [← Nat.add_assoc, Nat.add_right_comm, List.getElem?_cons_succ]
                    exact hall i (by simpa using hi)
              · rintro ⟨hall, hnone⟩
                refine ⟨?_, fun i hi => ?_, by
                  rwa [List.length_cons, ← Nat.add_assoc, Nat.add_right_comm] at hnone⟩
                · exact Option.some.inj (hv.symm.trans (hall 0 (by simp)))
                · have := hall (i + 1) (by simpa using hi)
                  rwa [← Nat.add_assoc, Nat.add_right_comm, List.getElem?_cons_succ] at this

theorem ipairs_eq_iff (hpos : Function.Injective pos) : ipairs pos t = l ↔
    (∀ i < l.length, t.lookup (pos (i + 1)) = l[i]?) ∧
      t.lookup (pos (l.length + 1)) = none := by
  rw [ipairs, ipairsFrom_eq_iff (exists_lookup_eq_none hpos t 1)]
  simp only [Nat.add_comm 1]

theorem isBorder_length_ipairs (hpos : Function.Injective pos) (t : List (α × α)) :
    IsBorder pos t (ipairs pos t).length := by
  obtain ⟨hall, hnone⟩ := (ipairs_eq_iff hpos).mp (Eq.refl (ipairs pos t))
  refine ⟨?_, hnone⟩
  cases hlength : (ipairs pos t).length with
  | zero => exact Or.inl rfl
  | succ n =>
      have hlt : n < (ipairs pos t).length := by omega
      rw [hall n hlt, List.getElem?_eq_getElem hlt]
      exact Or.inr rfl

def Length.first (hpos : Function.Injective pos) : Length pos :=
  ⟨fun t => (ipairs pos t).length, isBorder_length_ipairs hpos⟩

end Ipairs

section Add

variable {op : Length pos} {t : List (α × α)} {x k v : α}

/-- A round leaves the values that there are, and puts a new item under two keys at most. -/
theorem lookup_add : (add op t x).lookup k =
    if (t.lookup x).isSome then t.lookup k
    else if k = x ∨ k = pos (op.len t + 1) then some x else t.lookup k := by
  rw [add]
  split
  · rfl
  · by_cases hx : k = x
    · rw [hx, lookup_assign_self, if_pos (Or.inl rfl)]
    · rw [lookup_assign_of_ne hx]
      by_cases hk : k = pos (op.len t + 1)
      · rw [hk, lookup_assign_self, if_pos (Or.inr rfl)]
      · rw [lookup_assign_of_ne hk, if_neg (by simp [hx, hk])]

theorem lookup_add_of_some (h : t.lookup k = some v) : (add op t x).lookup k = some v := by
  rw [lookup_add]
  split
  · exact h
  · rename_i hx
    rw [if_neg, h]
    rintro (rfl | rfl)
    · exact hx (by rw [h]; rfl)
    · rw [(op.border t).2] at h
      cases h

theorem isSome_lookup_add_of_isSome (h : (t.lookup k).isSome) :
    ((add op t x).lookup k).isSome := by
  obtain ⟨v, hv⟩ := Option.isSome_iff_exists.mp h
  rw [lookup_add_of_some hv]
  rfl

theorem isSome_lookup_add : ((add op t x).lookup x).isSome := by
  rw [lookup_add]
  split
  · assumption
  · simp

theorem cases_lookup_add (h : (add op t x).lookup k = some v) :
    t.lookup k = some v ∨ v = x ∧ (k = x ∨ k = pos (op.len t + 1)) := by
  rw [lookup_add] at h
  split at h
  · exact Or.inl h
  · split at h
    · rename_i hk
      exact Or.inr ⟨(Option.some.inj h).symm, hk⟩
    · exact Or.inl h

end Add

section Run

variable {op : Length pos} {items : List α} {t : List (α × α)} {x k v : α}

theorem isSome_lookup_foldl (h : x ∈ items ∨ (t.lookup x).isSome) :
    ((items.foldl (add op) t).lookup x).isSome := by
  induction items generalizing t with
  | nil => exact h.resolve_left List.not_mem_nil
  | cons y items ih =>
      apply ih
      rw [List.mem_cons, or_assoc] at h
      rcases h with rfl | h | h
      · exact Or.inr isSome_lookup_add
      · exact Or.inl h
      · exact Or.inr (isSome_lookup_add_of_isSome h)

theorem mem_of_lookup_foldl (h : (items.foldl (add op) t).lookup k = some v) :
    t.lookup k = some v ∨ v ∈ items := by
  induction items generalizing t with
  | nil => exact Or.inl h
  | cons x items ih =>
      rcases ih h with h | h
      · rcases cases_lookup_add h with h | ⟨rfl, -⟩
        · exact Or.inl h
        · exact Or.inr List.mem_cons_self
      · exact Or.inr (List.mem_cons_of_mem x h)

theorem lookup_foldl_self (ht : ∀ k v, t.lookup k = some v → t.lookup v = some v)
    (h : (items.foldl (add op) t).lookup k = some v) :
    (items.foldl (add op) t).lookup v = some v := by
  induction items generalizing t with
  | nil => exact ht k v h
  | cons x items ih =>
      refine ih (fun k v hv => ?_) h
      rcases cases_lookup_add hv with hv | ⟨rfl, hk⟩
      · exact lookup_add_of_some (ht k v hv)
      · rw [lookup_add] at hv ⊢
        split at hv
        · rename_i hsome
          rw [if_pos hsome]
          exact ht k v hv
        · rename_i hnone
          rw [if_neg hnone, if_pos (Or.inl rfl)]

theorem foldl_add_fresh {found : List α} (h : ∀ x ∈ found, (t.lookup x).isSome) :
    items.foldl (add op) t = (fresh found items).foldl (add op) t := by
  induction items generalizing found t with
  | nil => rfl
  | cons x items ih =>
      rw [List.foldl_cons, fresh]
      split
      · rename_i hx
        rw [add, if_pos (h x hx), ih h]
      · rw [List.foldl_cons]
        apply ih
        intro y hy
        rcases List.mem_append.mp hy with hy | hy
        · exact isSome_lookup_add_of_isSome (h y hy)
        · rw [List.mem_singleton.mp hy]
          exact isSome_lookup_add

theorem foldl_add_eq_self (h : ∀ x ∈ items, (t.lookup x).isSome) :
    items.foldl (add op) t = t := by
  induction items with
  | nil => rfl
  | cons x items ih =>
      rw [List.foldl_cons, add, if_pos (h x List.mem_cons_self)]
      exact ih fun y hy => h y (List.mem_cons_of_mem x hy)

end Run

section Necessary

variable (hpos : Function.Injective pos) {op : Length pos} {u : List α}
include hpos

/-- Under any length operator, an item that is a position is its own or lies beyond the end. -/
theorem eq_or_lt_of_ipairs (hu : u.Nodup) (h : ipairs pos (u.foldl (add op) []) = u) {p n : ℕ}
    (hp : u[p]? = some (pos (n + 1))) : n = p ∨ u.length < n := by
  obtain ⟨hall, hend⟩ := (ipairs_eq_iff hpos).mp h
  have hlt : p < u.length := (List.getElem?_eq_some_iff.mp hp).1
  have hself := lookup_foldl_self (by simp) ((hall p hlt).trans hp)
  rcases Nat.lt_trichotomy n u.length with hn | hn | hn
  · rw [hall n hn, ← hp] at hself
    exact Or.inl ((List.getElem?_inj hn hu).mp hself)
  · rw [hn, hend] at hself
    cases hself
  · exact Or.inr hn

omit [DecidableEq α] in
theorem exists_bound (l : List α) : ∃ b, ∀ m, pos m ∈ l → m ≤ b := by
  induction l with
  | nil => exact ⟨0, fun m hm => absurd hm List.not_mem_nil⟩
  | cons k l ih =>
      obtain ⟨b, hb⟩ := ih
      by_cases hk : ∃ m, pos m = k
      · obtain ⟨m, rfl⟩ := hk
        refine ⟨max m b, fun m' hm' => ?_⟩
        rcases List.mem_cons.mp hm' with heq | hm'
        · rw [hpos heq]
          exact le_max_left m b
        · exact (hb m' hm').trans (le_max_right m b)
      · refine ⟨b, fun m hm => ?_⟩
        rcases List.mem_cons.mp hm with heq | hm
        · exact absurd ⟨m, heq⟩ hk
        · exact hb m hm

theorem exists_greatest (t : List (α × α)) :
    ∃ n, IsBorder pos t n ∧ ∀ m, (t.lookup (pos m)).isSome → m ≤ n := by
  obtain ⟨b, hb⟩ := exists_bound hpos (t.map Prod.fst)
  have hlast : ∀ m, (t.lookup (pos m)).isSome →
      m ≤ Nat.findGreatest (fun m => (t.lookup (pos m)).isSome) b := fun m hm =>
    Nat.le_findGreatest (hb m (lookup_isSome_iff_mem_keys.mp hm)) hm
  refine ⟨_, ⟨?_, ?_⟩, hlast⟩
  · rcases Nat.eq_zero_or_pos (Nat.findGreatest (fun m => (t.lookup (pos m)).isSome) b) with h | h
    · exact Or.inl h
    · exact Or.inr (Nat.findGreatest_of_ne_zero rfl h.ne')
  · by_contra hne
    exact absurd (hlast _ (Option.isSome_iff_ne_none.mpr hne)) (Nat.not_succ_le_self _)

/-- Behind a position that is an item, a length operator that returns the last border puts
nothing in front of it but what goes to its own place. -/
theorem lookup_foldl_of_greatest
    (hop : ∀ t m, (t.lookup (pos m)).isSome → m ≤ op.len t) {items : List α}
    {t : List (α × α)} {n q : ℕ} {v : α} (hn : (t.lookup (pos n)).isSome) (hq : q ≤ n)
    (h : (items.foldl (add op) t).lookup (pos q) = some v) :
    t.lookup (pos q) = some v ∨ v = pos q := by
  induction items generalizing t with
  | nil => exact Or.inl h
  | cons x items ih =>
      rcases ih (isSome_lookup_add_of_isSome hn) h with h | h
      · rcases cases_lookup_add h with h | ⟨rfl, h | h⟩
        · exact Or.inl h
        · exact Or.inr h.symm
        · have := hop t n hn
          have := hpos h
          omega
      · exact Or.inr h

theorem separate_of_forall (hu : u.Nodup)
    (h : ∀ op : Length pos, ipairs pos (u.foldl (add op) []) = u) : Separate pos u := by
  choose len hborder hlast using @exists_greatest α _ pos hpos
  have hgreatest := h ⟨len, hborder⟩
  intro p n hp
  refine (eq_or_lt_of_ipairs hpos hu hgreatest hp).imp_right fun hn => ⟨hn, fun q hpq hq => ?_⟩
  have hq' := ((ipairs_eq_iff hpos).mp hgreatest).1 q hq
  obtain ⟨v, hv⟩ : ∃ v, u[q]? = some v := ⟨_, List.getElem?_eq_getElem hq⟩
  rw [hv] at hq' ⊢
  -- the item is put in after the one at `p`
  rw [← List.take_append_drop (p + 1) u, List.foldl_append] at hq'
  have hmem : pos (n + 1) ∈ u.take (p + 1) :=
    List.mem_of_getElem? ((List.getElem?_take_of_lt p.lt_succ_self).trans hp)
  rcases lookup_foldl_of_greatest hpos hlast (isSome_lookup_foldl (Or.inl hmem)) (by omega)
    hq' with hq' | hq'
  · have htake := (mem_of_lookup_foldl hq').resolve_left (by simp)
    have hdrop : v ∈ u.drop (p + 1) := by
      apply List.mem_of_getElem? (i := q - (p + 1))
      rw [List.getElem?_drop, Nat.add_sub_cancel' hpq, hv]
    exact absurd hdrop (List.disjoint_take_drop hu le_rfl htake)
  · rw [hq']

end Necessary

section Sufficient

variable (hpos : Function.Injective pos) {op : Length pos} {u : List α}

def Own (pos : ℕ → α) (u : List α) (m : ℕ) : Prop :=
  ∀ q, m ≤ q → q < u.length → u[q]? = some (pos (q + 1))

/-- The table after the first `m` items: they stand at their positions, and under their names;
another position has a value only beyond the end, and then every item to come is its own. -/
structure Holds (pos : ℕ → α) (u : List α) (m : ℕ) (t : List (α × α)) : Prop where
  standing : ∀ i < m, t.lookup (pos (i + 1)) = u[i]?
  keys : ∀ k, (t.lookup k).isSome → k ∈ u.take m ∨ (∃ i < m, k = pos (i + 1)) ∨
    ∃ n, u.length < n ∧ k = pos (n + 1) ∧ Own pos u m

include hpos

theorem Holds.lookup_eq_none (hu : u.Nodup) (hsep : Separate pos u) {m : ℕ} {t : List (α × α)}
    (h : Holds pos u m t) {x : α} (hx : u[m]? = some x) : t.lookup x = none := by
  have hm : m < u.length := (List.getElem?_eq_some_iff.mp hx).1
  by_contra hne
  rcases h.keys x (Option.isSome_iff_ne_none.mpr hne) with hmem | ⟨i, hi, rfl⟩ | ⟨n, hn, rfl, hown⟩
  · have hdrop : x ∈ u.drop m := by
      apply List.mem_of_getElem? (i := 0)
      rw [List.getElem?_drop, Nat.add_zero, hx]
    exact List.disjoint_take_drop hu le_rfl hmem hdrop
  · rcases hsep m i hx with rfl | ⟨hlt, -⟩
    · exact lt_irrefl _ hi
    · omega
  · have := Nat.succ.inj (hpos (Option.some.inj (hx.symm.trans (hown m le_rfl hm))))
    omega

/-- The next item goes behind the others, unless all the items to come are their own positions
anyway. -/
theorem Holds.border (hsep : Separate pos u) {m b : ℕ} {t : List (α × α)}
    (h : Holds pos u m t) (hm : m ≤ u.length) (hb : IsBorder pos t b) :
    b = m ∨ u.length < b ∧ Own pos u m := by
  -- a border in front of `m` would have a value behind it
  have hle : b ≤ m → b = m := by
    intro hbm
    by_contra hne
    have hlt : b < m := by omega
    have hnone := hb.2
    rw [h.standing b hlt, List.getElem?_eq_none_iff] at hnone
    omega
  cases b with
  | zero => exact Or.inl (hle (Nat.zero_le m))
  | succ c =>
      rcases h.keys _ (hb.1.resolve_left (Nat.succ_ne_zero c)) with hmem | ⟨i, hi, heq⟩ |
        ⟨n, hn, heq, hown⟩
      · obtain ⟨i, hi⟩ := List.mem_iff_getElem?.mp hmem
        have him : i < m := by
          have := (List.getElem?_eq_some_iff.mp hi).1
          rw [List.length_take] at this
          omega
        rw [List.getElem?_take_of_lt him] at hi
        rcases hsep i c hi with rfl | ⟨hc, hown⟩
        · exact Or.inl (hle him)
        · exact Or.inr ⟨by omega, fun q hq => hown q (by omega)⟩
      · obtain rfl := Nat.succ.inj (hpos heq)
        exact Or.inl (hle hi)
      · obtain rfl := Nat.succ.inj (hpos heq)
        exact Or.inr ⟨by omega, hown⟩

theorem Holds.add (hu : u.Nodup) (hsep : Separate pos u) {m : ℕ} {t : List (α × α)}
    (h : Holds pos u m t) {x : α} (hx : u[m]? = some x) :
    Holds pos u (m + 1) (add op t x) := by
  have hm : m < u.length := (List.getElem?_eq_some_iff.mp hx).1
  have hnone := h.lookup_eq_none hpos hu hsep hx
  have hborder := h.border hpos hsep hm.le (op.border t)
  have htake : u.take (m + 1) = u.take m ++ [x] := by
    rw [List.take_add_one, hx, Option.toList_some]
  constructor
  · intro i hi
    rcases Nat.lt_succ_iff_lt_or_eq.mp hi with hi | rfl
    · obtain ⟨v, hv⟩ : ∃ v, u[i]? = some v := ⟨_, List.getElem?_eq_getElem (hi.trans hm)⟩
      rw [hv]
      exact lookup_add_of_some ((h.standing i hi).trans hv)
    · rw [lookup_add, if_neg (by simp [hnone]), hx, if_pos]
      rcases hborder with hb | ⟨-, hown⟩
      · exact Or.inr (by rw [hb])
      · exact Or.inl (Option.some.inj ((hown i le_rfl hm).symm.trans hx))
  · intro k hk
    obtain ⟨v, hv⟩ := Option.isSome_iff_exists.mp hk
    rw [htake, List.mem_append, List.mem_singleton]
    rcases cases_lookup_add hv with hv | ⟨-, rfl | rfl⟩
    · rcases h.keys k (by rw [hv]; rfl) with hmem | ⟨i, hi, rfl⟩ | ⟨n, hn, rfl, hown⟩
      · exact Or.inl (Or.inl hmem)
      · exact Or.inr (Or.inl ⟨i, by omega, rfl⟩)
      · exact Or.inr (Or.inr ⟨n, hn, rfl, fun q hq => hown q (by omega)⟩)
    · exact Or.inl (Or.inr rfl)
    · rcases hborder with hb | ⟨hb, hown⟩
      · exact Or.inr (Or.inl ⟨m, m.lt_succ_self, by rw [hb]⟩)
      · exact Or.inr (Or.inr ⟨_, hb, rfl, fun q hq => hown q (by omega)⟩)

theorem holds_foldl (hu : u.Nodup) (hsep : Separate pos u) {m : ℕ} (hm : m ≤ u.length) :
    Holds pos u m ((u.take m).foldl (Listset.add op) []) := by
  induction m with
  | zero => exact ⟨fun i hi => absurd hi (Nat.not_lt_zero i), fun k hk => absurd hk (by simp)⟩
  | succ m ih =>
      have hx : u[m]? = some u[m] := List.getElem?_eq_getElem hm
      rw [List.take_add_one, hx, Option.toList_some, List.foldl_append]
      exact (ih (by omega)).add hpos hu hsep hx

/-- Under every length operator the list is the one of the items. -/
theorem ipairs_foldl_of_separate (hu : u.Nodup) (hsep : Separate pos u) :
    ipairs pos (u.foldl (Listset.add op) []) = u := by
  have h := @holds_foldl α _ pos hpos op u hu hsep u.length le_rfl
  rw [List.take_length] at h
  refine (ipairs_eq_iff hpos).mpr ⟨h.standing, ?_⟩
  by_contra hne
  rcases h.keys _ (Option.isSome_iff_ne_none.mpr hne) with hmem | ⟨i, hi, heq⟩ | ⟨n, hn, heq, -⟩
  · rw [List.take_length] at hmem
    obtain ⟨i, hi⟩ := List.mem_iff_getElem?.mp hmem
    have hlt := (List.getElem?_eq_some_iff.mp hi).1
    rcases hsep i _ hi with rfl | ⟨hlt', -⟩
    · exact lt_irrefl _ hlt
    · exact lt_irrefl _ hlt'
  · have := Nat.succ.inj (hpos heq)
    omega
  · have := Nat.succ.inj (hpos heq)
    omega

end Sufficient

/-- The list that the items make is their union, for every length operator, exactly when the
union is separate. -/
theorem ipairs_foldl_iff (hpos : Function.Injective pos) (items : List α) :
    (∀ op : Length pos, ipairs pos (items.foldl (add op) []) = fresh [] items) ↔
      Separate pos (fresh [] items) := by
  have hu : (fresh [] items).Nodup := nodup_fresh
  have hfresh : ∀ op : Length pos, items.foldl (add op) [] =
      (fresh [] items).foldl (add op) [] := fun op =>
    foldl_add_fresh fun x hx => absurd hx List.not_mem_nil
  constructor
  · intro h
    exact separate_of_forall hpos hu fun op => hfresh op ▸ h op
  · intro h op
    rw [hfresh]
    exact ipairs_foldl_of_separate hpos hu h

end Listset

end Puremake
