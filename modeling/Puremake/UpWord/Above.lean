import Puremake.UpWord.Blind

/-!
# Reducing above another word

When a word without rigid letters is reduced above another one, the moves up that it would
absorb by itself remove letters from the end of what the other one leaves. The blind reduction
keeps only the parity of their number, so it may stand for the word there exactly when at most
one of them is absorbed, or when there is nothing that the others could remove.
-/

namespace UpWord

def Supple {α : Type*} (role : α → Role) (w : List α) : Prop := ∀ x ∈ w, role x ≠ .rigid

section Supple

variable {α : Type*} {role : α → Role} {st v w : List α}

theorem plain_of_ne {x : α} (hup : role x ≠ .up) (hrigid : role x ≠ .rigid) :
    role x = .plain := by
  cases h : role x with
  | up => exact absurd h hup
  | plain => rfl
  | rigid => exact absurd h hrigid

theorem Supple.blind (h : Supple role w) : Supple role (blind role w) := fun x hx =>
  h x (mem_of_mem_blind hx)

theorem Supple.append (hv : Supple role v) (hw : Supple role w) : Supple role (v ++ w) := by
  intro x hx
  rcases List.mem_append.mp hx with hx | hx
  · exact hv x hx
  · exact hw x hx

theorem plain_push {x : α} (hx : role x ≠ .rigid) (hst : ∀ y ∈ st, role y = .plain) :
    ∀ y ∈ push role true st x, role y = .plain := by
  intro y hy
  by_cases hup : role x = .up
  · cases st with
    | nil =>
        rw [push_up_nil hup] at hy
        cases hy
    | cons z st =>
        rw [push_up_plain hup (hst z List.mem_cons_self)] at hy
        exact hst y (List.mem_cons_of_mem z hy)
  · rw [push_of_ne_up hup] at hy
    rcases List.mem_cons.mp hy with rfl | hy
    · exact plain_of_ne hup hx
    · exact hst y hy

/-- A word without rigid letters leaves plain letters only when it is anchored. -/
theorem plain_reduceFrom (hw : Supple role w) (hst : ∀ y ∈ st, role y = .plain) :
    ∀ y ∈ reduceFrom role true st w, role y = .plain := by
  induction w generalizing st with
  | nil => exact hst
  | cons x w ih =>
      refine ih (fun y hy => hw y (List.mem_cons_of_mem x hy)) ?_
      exact plain_push (hw x List.mem_cons_self) hst

theorem plain_of_mem_reduce (hw : Supple role w) {x : α} (hx : x ∈ reduce role true w) :
    role x = .plain := by
  refine plain_reduceFrom hw (fun y hy => ?_) x (List.mem_reverse.mp hx)
  cases hy

theorem ne_up_of_mem_reduce (hw : Supple role w) {x : α} (hx : x ∈ reduce role true w) :
    role x ≠ .up := by
  rw [plain_of_mem_reduce hw hx]
  simp

/-- The blind reduction loses nothing of an anchored word without rigid letters. -/
theorem reduce_blind_of_supple (hw : Supple role w) :
    reduce role true (blind role w) = reduce role true w :=
  (reduce_blind_eq_iff w).mpr fun _ => ne_up_of_mem_reduce hw

end Supple

section Above

variable {α : Type*} {role : α → Role} {st base v w : List α}

/-- On a stack of plain letters, the moves up that are absorbed on an upper part of it remove
letters of the lower part. -/
theorem reduceFrom_above (hw : Supple role w) (hst : ∀ y ∈ st, role y = .plain)
    (hbase : ∀ y ∈ base, role y = .plain) :
    reduceFrom role true (st ++ base) w =
      reduceFrom role true st w ++ base.drop (absorbedFrom role st w) := by
  induction w generalizing st base with
  | nil => rfl
  | cons x w ih =>
      have hrest : Supple role w := fun y hy => hw y (List.mem_cons_of_mem x hy)
      have hpush := plain_push (hw x List.mem_cons_self) hst
      rw [reduceFrom_cons, reduceFrom_cons, absorbedFrom]
      by_cases hx : role x = .up
      · cases st with
        | nil =>
            rw [if_pos ⟨hx, rfl⟩, List.nil_append, push_up_nil hx, if_pos rfl]
            cases base with
            | nil =>
                rw [push_up_nil hx, if_pos rfl, List.drop_nil, List.append_nil]
            | cons b base =>
                have hlow : ∀ y ∈ base, role y = .plain := fun y hy =>
                  hbase y (List.mem_cons_of_mem b hy)
                rw [push_up_plain hx (hbase b List.mem_cons_self), Nat.add_comm,
                  List.drop_succ_cons]
                exact @ih [] base hrest (fun y hy => absurd hy List.not_mem_nil) hlow
        | cons z st =>
            have hz : role z = .plain := hst z List.mem_cons_self
            rw [push_up_plain hx hz] at hpush ⊢
            rw [List.cons_append, push_up_plain hx hz, if_neg (by simp), Nat.zero_add]
            exact ih hrest hpush hbase
      · rw [push_of_ne_up hx] at hpush ⊢
        rw [push_of_ne_up hx, if_neg (by simp [hx]), Nat.zero_add, ← List.cons_append]
        exact ih hrest hpush hbase

theorem reduce_append (hv : Supple role v) (hw : Supple role w) :
    reduce role true (v ++ w) =
      (reduce role true v).take ((reduce role true v).length - absorbed role w) ++
        reduce role true w := by
  have hplain : ∀ y ∈ reduceFrom role true [] v, role y = .plain := fun y hy =>
    plain_of_mem_reduce hv (List.mem_reverse.mpr hy)
  have habove := @reduceFrom_above _ role [] _ w hw (fun y hy => absurd hy List.not_mem_nil) hplain
  rw [List.nil_append] at habove
  rw [reduce, reduceFrom_append, habove, List.reverse_append, reduce, reduce, List.reverse_drop,
    List.length_reverse]
  rfl

theorem absorbed_of_ne_up (hw : ∀ x ∈ w, role x ≠ .up) (st : List α) :
    absorbedFrom role st w = 0 := by
  induction w generalizing st with
  | nil => rfl
  | cons x w ih =>
      rw [absorbedFrom, if_neg fun h => hw x List.mem_cons_self h.1, Nat.zero_add]
      exact ih (fun y hy => hw y (List.mem_cons_of_mem x hy)) _

/-- The blind reduction keeps the parity of the number of moves up that are absorbed. -/
theorem absorbed_blind (hw : Supple role w) :
    absorbed role (blind role w) = absorbed role w % 2 := by
  have hup : ∀ x ∈ reduce role true w, role x ≠ .up := fun _ => ne_up_of_mem_reduce hw
  obtain ⟨f, hf, heq⟩ := blind_anchored hup
  have hrest : absorbedFrom role [] (reduce role true w) = 0 :=
    absorbed_of_ne_up hup []
  rw [heq]
  rcases hf with ⟨hn, rfl⟩ | ⟨hn, u, rfl, hu⟩
  · rw [hn]
    exact hrest
  · rw [hn, absorbed, List.singleton_append, absorbedFrom, if_pos ⟨hu, rfl⟩, push_up_nil hu,
      if_pos rfl, hrest]

/-- The blind reduction of a word stands for the word above another one exactly when the word
absorbs at most one move up, or no other one could remove anything. -/
theorem reduce_append_blind_iff (hv : Supple role v) (hw : Supple role w) :
    reduce role true (v ++ blind role w) = reduce role true (v ++ w) ↔
      absorbed role w ≤ 1 ∨ (reduce role true v).length ≤ absorbed role w % 2 := by
  rw [reduce_append hv hw.blind, reduce_append hv hw, absorbed_blind hw,
    reduce_blind_of_supple hw, List.append_left_inj]
  constructor
  · intro h
    have hlength := congrArg List.length h
    rw [List.length_take, List.length_take] at hlength
    omega
  · intro h
    have hsame : (reduce role true v).length - absorbed role w % 2 =
        (reduce role true v).length - absorbed role w := by omega
    rw [hsame]

end Above

end UpWord
