import Puremake.Fold.Basic
import Mathlib.Data.List.Count
import Mathlib.Data.List.Flatten
import Mathlib.Data.List.Nodup

/-!
# Choosing what nobody else can choose

Everyone has a list of choices. How often something is a choice is counted over all lists, and
everyone takes a choice that is counted once, or, where there is none, the last of the own
choices. What is counted once is taken by one only. So two take the same exactly when both are
stuck, which is to say that none of their choices is counted once, and have the same last choice.
-/

namespace Choice

variable {α : Type*}

def Stuck (count : α → ℕ) (l : List α) : Prop := ∀ d ∈ l, count d ≠ 1

/-- The choice that is taken: one that is counted once, or else the last. -/
structure Taken (count : α → ℕ) (l : List α) (d : α) : Prop where
  mem : d ∈ l
  once_or_last : count d = 1 ∨ Stuck count l ∧ l.getLast? = some d

def considered (count : α → ℕ) : List α → List α
  | [] => []
  | d :: ds => if count d = 1 then [d] else d :: considered count ds

def Clash (count : α → ℕ) (l l' : List α) : Prop :=
  Stuck count l ∧ Stuck count l' ∧ l.getLast? = l'.getLast?

instance (count : α → ℕ) (l : List α) : Decidable (Stuck count l) :=
  List.decidableBAll _ l

instance [DecidableEq α] (count : α → ℕ) (l l' : List α) : Decidable (Clash count l l') :=
  inferInstanceAs (Decidable (_ ∧ _ ∧ _))

section Pairwise

variable {β : Type*}

/-- Relations between the members of two lists that belong together. -/
theorem pairwise_iff_of_forall₂ {R : α → β → Prop} {S : α → α → Prop} {T : β → β → Prop}
    {xs : List α} {ys : List β} (h : List.Forall₂ R xs ys)
    (hST : ∀ x x', [x, x'].Sublist xs → ∀ y y', R x y → R x' y' → (S x x' ↔ T y y')) :
    xs.Pairwise S ↔ ys.Pairwise T := by
  induction h with
  | nil => exact iff_of_true .nil .nil
  | @cons x y xs ys hxy hrest ih =>
      have hpair : ∀ x' ∈ xs, [x, x'].Sublist (x :: xs) := fun x' hx' =>
        (List.singleton_sublist.mpr hx').cons_cons x
      rw [List.pairwise_cons, List.pairwise_cons,
        ih fun a a' hsub => hST a a' (hsub.trans (List.sublist_cons_self x xs))]
      refine and_congr_left fun _ => ⟨fun hS y' hy' => ?_, fun hT x' hx' => ?_⟩
      · obtain ⟨x', hx', hxy'⟩ := FoldRun.exists_left_of_forall₂ hrest hy'
        exact (hST x x' (hpair x' hx') y y' hxy hxy').mp (hS x' hx')
      · obtain ⟨y', hy', hxy'⟩ := FoldRun.exists_right_of_forall₂ hrest hx'
        exact (hST x x' (hpair x' hx') y y' hxy hxy').mpr (hT y' hy')

end Pairwise

variable [BEq α] [LawfulBEq α]

theorem count_ne_one {xs : List (List α)} {l l' : List α} (h : [l, l'].Sublist xs) {d : α}
    (hd : d ∈ l) (hd' : d ∈ l') : xs.flatten.count d ≠ 1 := by
  have hle := h.flatten.count_le d
  rw [List.flatten_cons, List.flatten_cons, List.flatten_nil, List.append_nil,
    List.count_append] at hle
  have hpos := List.count_pos_iff.mpr hd
  have hpos' := List.count_pos_iff.mpr hd'
  omega

theorem nodup_iff {xs : List (List α)} {ds : List α}
    (h : List.Forall₂ (Taken fun d => xs.flatten.count d) xs ds) :
    ds.Nodup ↔ xs.Pairwise fun l l' => ¬ Clash (fun d => xs.flatten.count d) l l' := by
  refine (pairwise_iff_of_forall₂ h fun l l' hsub d d' hd hd' => not_congr ?_).symm
  constructor
  · rintro ⟨hl, hl', hlast⟩
    have hlastd := (hd.once_or_last.resolve_left (hl d hd.mem)).2
    have hlastd' := (hd'.once_or_last.resolve_left (hl' d' hd'.mem)).2
    rw [hlastd, hlastd'] at hlast
    exact Option.some.inj hlast
  · rintro rfl
    have hne := count_ne_one hsub hd.mem hd'.mem
    obtain ⟨hl, hlast⟩ := hd.once_or_last.resolve_left hne
    obtain ⟨hl', hlast'⟩ := hd'.once_or_last.resolve_left hne
    exact ⟨hl, hl', hlast.trans hlast'.symm⟩

end Choice
