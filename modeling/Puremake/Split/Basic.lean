import Mathlib.Data.List.Infix
import Mathlib.Data.List.Basic

/-!
# Splitting a list at a word

A word is cut out of a list where it occurs first, and then again out of what is behind it. The
parts that are left in the end do not have the word in them, and they are the list when the word
is put between them.
-/

namespace Split

variable {α : Type*} [DecidableEq α]

/-- The first occurrence of a word: what is in front of it and what is behind it. -/
def cut (w : List α) : List α → Option (List α × List α)
  | [] => if w = [] then some ([], []) else none
  | a :: s =>
      if w <+: a :: s then some ([], (a :: s).drop w.length)
      else (cut w s).map fun p => (a :: p.1, p.2)

/-- The parts of a list between the occurrences of a word. -/
inductive Parts (w : List α) : List α → List (List α) → Prop
  | last {s : List α} (h : cut w s = none) : Parts w s [s]
  | cut {s u v : List α} {ps : List (List α)} (h : cut w s = some (u, v)) (hv : Parts w v ps) :
      Parts w s (u :: ps)

variable {w s u v : List α} {ps : List (List α)}

section Cut

theorem cut_of_prefix (h : w <+: s) : cut w s = some ([], s.drop w.length) := by
  cases s with
  | nil =>
      obtain rfl := List.prefix_nil.mp h
      rfl
  | cons a s => rw [cut, if_pos h]

theorem eq_of_cut (h : cut w s = some (u, v)) : s = u ++ w ++ v := by
  induction s generalizing u with
  | nil =>
      rw [cut] at h
      split at h
      · rename_i hw
        obtain ⟨rfl, rfl⟩ := Prod.mk.inj (Option.some.inj h)
        rw [hw]
        rfl
      · cases h
  | cons a s ih =>
      rw [cut] at h
      split at h
      · rename_i hpre
        obtain ⟨rfl, rfl⟩ := Prod.mk.inj (Option.some.inj h)
        obtain ⟨t, ht⟩ := hpre
        rw [← ht, List.drop_left]
        rfl
      · obtain ⟨p, hp, heq⟩ := Option.map_eq_some_iff.mp h
        obtain ⟨rfl, rfl⟩ := Prod.mk.inj heq
        rw [ih hp]
        rfl

theorem not_infix_of_cut (hw : w ≠ []) (h : cut w s = some (u, v)) : ¬ w <:+: u := by
  induction s generalizing u with
  | nil =>
      rw [cut, if_neg hw] at h
      cases h
  | cons a s ih =>
      have heq := eq_of_cut h
      rw [cut] at h
      split at h
      · obtain ⟨rfl, -⟩ := Prod.mk.inj (Option.some.inj h)
        exact fun hinfix => hw (List.infix_nil.mp hinfix)
      · rename_i hpre
        obtain ⟨p, hp, hpair⟩ := Option.map_eq_some_iff.mp h
        obtain ⟨rfl, rfl⟩ := Prod.mk.inj hpair
        intro hinfix
        rcases List.infix_cons_iff.mp hinfix with hbegin | hinfix
        · refine hpre (hbegin.trans ?_)
          rw [heq, List.append_assoc]
          exact List.prefix_append _ _
        · exact ih hp hinfix

theorem not_infix_of_cut_eq_none (h : cut w s = none) : ¬ w <:+: s := by
  induction s with
  | nil =>
      rw [cut] at h
      split at h
      · cases h
      · rename_i hw
        exact fun hinfix => hw (List.infix_nil.mp hinfix)
  | cons a s ih =>
      rw [cut] at h
      split at h
      · cases h
      · rename_i hpre
        intro hinfix
        rcases List.infix_cons_iff.mp hinfix with hbegin | hinfix
        · exact hpre hbegin
        · exact ih (Option.map_eq_none_iff.mp h) hinfix

end Cut

section Parts

theorem Parts.ne_nil (h : Parts w s ps) : ps ≠ [] := by
  cases h with
  | last => exact List.cons_ne_nil _ _
  | cut => exact List.cons_ne_nil _ _

theorem Parts.intercalate (h : Parts w s ps) : w.intercalate ps = s := by
  induction h with
  | last => exact List.intercalate_singleton
  | @cut s u v ps hcut hv ih =>
      obtain ⟨q, qs, rfl⟩ := List.exists_cons_of_ne_nil hv.ne_nil
      rw [List.intercalate_cons_cons, ih, eq_of_cut hcut]

theorem Parts.not_infix (hw : w ≠ []) (h : Parts w s ps) : ∀ p ∈ ps, ¬ w <:+: p := by
  induction h with
  | last hcut =>
      intro p hp
      obtain rfl := List.mem_singleton.mp hp
      exact not_infix_of_cut_eq_none hcut
  | cut hcut _ ih =>
      intro p hp
      rcases List.mem_cons.mp hp with rfl | hp
      · exact not_infix_of_cut hw hcut
      · exact ih p hp

theorem exists_parts (hw : w ≠ []) (s : List α) : ∃ ps, Parts w s ps := by
  induction hn : s.length using Nat.strong_induction_on generalizing s with
  | _ n ih =>
      cases hcut : Split.cut w s with
      | none => exact ⟨[s], .last hcut⟩
      | some p =>
          have hlt : p.2.length < n := by
            have hlen := congrArg List.length (eq_of_cut (u := p.1) (v := p.2) hcut)
            have hpos := List.length_pos_iff.mpr hw
            rw [List.length_append, List.length_append] at hlen
            omega
          obtain ⟨ps, hps⟩ := ih p.2.length hlt p.2 rfl
          exact ⟨p.1 :: ps, .cut hcut hps⟩

theorem Parts.length_le (hw : w ≠ []) (h : Parts w s ps) : ps.length ≤ s.length + 1 := by
  induction h with
  | last => exact Nat.succ_le_succ (Nat.zero_le _)
  | cut hcut _ ih =>
      have hlen := congrArg List.length (eq_of_cut hcut)
      have hpos := List.length_pos_iff.mpr hw
      rw [List.length_append, List.length_append] at hlen
      rw [List.length_cons]
      omega

/-- A list begins with the word exactly when the first of several parts is empty. -/
theorem Parts.prefix_iff (h : Parts w s ps) :
    w <+: s ↔ ∃ qs, qs ≠ [] ∧ ps = [] :: qs := by
  constructor
  · intro hpre
    have hcut := cut_of_prefix hpre
    cases h with
    | last hnone => cases hnone.symm.trans hcut
    | cut hsome hv =>
        obtain ⟨rfl, rfl⟩ := Prod.mk.inj (Option.some.inj (hsome.symm.trans hcut))
        exact ⟨_, hv.ne_nil, rfl⟩
  · rintro ⟨qs, hqs, rfl⟩
    obtain ⟨q, qs, rfl⟩ := List.exists_cons_of_ne_nil hqs
    have heq := h.intercalate
    rw [List.intercalate_cons_cons, List.nil_append] at heq
    exact ⟨_, heq⟩

end Parts

end Split
