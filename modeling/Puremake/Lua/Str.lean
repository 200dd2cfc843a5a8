import Mathlib.Data.List.Basic

/-!
# Lua strings

A Lua string is the list of its characters. The operations here are the ones
of the `string` library that the path and baking functions call, in the form
in which they are called: a prefix or suffix test written with `sub`, a cut at
one end, the lower-case form in the C locale. `pieces isSep s` cuts a string at
every separator and keeps the empty pieces; `intercalate` puts pieces back
together, and the two are inverse on pieces without separators.
-/

namespace Puremake

abbrev Str := List Char

instance : LawfulBEq Str := inferInstanceAs (LawfulBEq (List Char))

namespace Str

/-- `s:lower()` in the C locale. -/
def lower (s : Str) : Str := s.map Char.toLower

/-- `s:startswith(needle)`, which is `s:sub(1, #needle) == needle`. -/
def startswith (s needle : Str) : Bool := needle.isPrefixOf s

/-- `s:endswith(needle)`, which is `s:sub(-#needle) == needle`, for a needle that is not empty. -/
def endswith (s needle : Str) : Bool := needle.isSuffixOf s

/-- `s:sub(-1) == c`. -/
def endsWithChar (s : Str) (c : Char) : Bool := s.getLast? = some c

theorem startswith_iff {s needle : Str} : s.startswith needle = true ↔ needle <+: s := by
  simp [startswith]

theorem endsWithChar_iff {s : Str} {c : Char} :
    s.endsWithChar c = true ↔ s.getLast? = some c := by
  simp [endsWithChar]

end Str

/-- A property of the characters of a text is checked character by character. -/
theorem forall_mem_of_all {s : Str} {P : Char → Prop} [DecidablePred P]
    (h : s.all (fun c => P c) = true) : ∀ c ∈ s, P c := fun c hc =>
  of_decide_eq_true (List.all_eq_true.mp h c hc)

section Lower

theorem toLower_eq_self_or (c : Char) :
    c.toLower = c ∨ ('A' ≤ c ∧ c ≤ 'Z' ∧ 'a' ≤ c.toLower ∧ c.toLower ≤ 'z') := by
  by_cases h : c.val ≥ 'A'.val ∧ c.val ≤ 'Z'.val
  · have hval : c.toLower.val = c.val + 32 :=
      congrArg Char.val (dif_pos h : c.toLower = _)
    have hlow : 65 ≤ c.val.toNat := UInt32.le_iff_toNat_le.mp h.1
    have hhigh : c.val.toNat ≤ 90 := UInt32.le_iff_toNat_le.mp h.2
    have hnat : c.toLower.val.toNat = c.val.toNat + 32 := by
      rw [hval, UInt32.toNat_add]
      exact Nat.mod_eq_of_lt (show c.val.toNat + 32 < 2 ^ 32 by omega)
    refine .inr ⟨h.1, h.2, UInt32.le_iff_toNat_le.mpr ?_, UInt32.le_iff_toNat_le.mpr ?_⟩
    · show 97 ≤ c.toLower.val.toNat
      omega
    · show c.toLower.val.toNat ≤ 122
      omega
  · exact .inl (dif_neg h)

theorem toLower_toLower (c : Char) : c.toLower.toLower = c.toLower := by
  rcases toLower_eq_self_or c with h | ⟨-, -, hlow, -⟩
  · rw [h, h]
  · rcases toLower_eq_self_or c.toLower with h | ⟨-, hhigh, -, -⟩
    · exact h
    · have hle : ('a' : Char) ≤ 'Z' := Char.le_trans hlow hhigh
      exact absurd hle (by decide)

theorem toLower_eq_iff {c d : Char} (hupper : ¬ ('A' ≤ d ∧ d ≤ 'Z'))
    (hlower : ¬ ('a' ≤ d ∧ d ≤ 'z')) : c.toLower = d ↔ c = d := by
  rcases toLower_eq_self_or c with h | ⟨h₁, h₂, h₃, h₄⟩
  · rw [h]
  · constructor
    · rintro rfl
      exact absurd ⟨h₃, h₄⟩ hlower
    · rintro rfl
      exact absurd ⟨h₁, h₂⟩ hupper

end Lower

/-- The pieces of a string between the characters that `isSep` accepts; empty
pieces are kept, and there is always at least one piece. -/
def pieces (isSep : Char → Bool) (s : Str) : List Str := s.splitOnP isSep

section Pieces

variable {isSep : Char → Bool}

@[simp] theorem pieces_nil : pieces isSep [] = [[]] := rfl

theorem pieces_cons (c : Char) (s : Str) :
    pieces isSep (c :: s) =
      if isSep c then [] :: pieces isSep s else (pieces isSep s).modifyHead (c :: ·) :=
  List.splitOnP_cons_eq_if_modifyHead c s

theorem pieces_ne_nil (s : Str) : pieces isSep s ≠ [] :=
  List.splitOnP_ne_nil isSep s

theorem exists_pieces_eq_cons (isSep : Char → Bool) (s : Str) :
    ∃ h t, pieces isSep s = h :: t :=
  List.exists_cons_of_ne_nil (pieces_ne_nil s)

theorem isSep_of_mem_pieces {s q : Str} (hq : q ∈ pieces isSep s) :
    ∀ c ∈ q, isSep c = false := by
  induction s generalizing q with
  | nil =>
      rw [pieces_nil, List.mem_singleton] at hq
      subst hq
      simp
  | cons c s ih =>
      rw [pieces_cons] at hq
      split at hq
      · rcases List.mem_cons.mp hq with rfl | hq
        · simp
        · exact ih hq
      · rename_i hc
        obtain ⟨h, t, heq⟩ := exists_pieces_eq_cons isSep s
        rw [heq, List.modifyHead_cons] at hq
        rcases List.mem_cons.mp hq with rfl | hq
        · intro d hd
          rcases List.mem_cons.mp hd with rfl | hd
          · simpa using hc
          · exact ih (by simp [heq]) d hd
        · exact ih (by simp [heq, hq])

theorem pieces_of_forall_not_sep {s : Str} (hs : ∀ c ∈ s, isSep c = false) :
    pieces isSep s = [s] := by
  induction s with
  | nil => rfl
  | cons c s ih =>
      rw [pieces_cons, if_neg (by simp [hs c]), ih fun d hd => hs d (by simp [hd])]
      rfl

theorem pieces_append_sep {s : Str} (hs : ∀ c ∈ s, isSep c = false) {d : Char}
    (hd : isSep d = true) (t : Str) :
    pieces isSep (s ++ d :: t) = s :: pieces isSep t := by
  induction s with
  | nil => simp [pieces_cons, hd]
  | cons c s ih =>
      rw [List.cons_append, pieces_cons, if_neg (by simp [hs c]),
        ih fun e he => hs e (by simp [he])]
      rfl

theorem pieces_append_pieces (s : Str) {d : Char} (hd : isSep d = true) (t : Str) :
    pieces isSep (s ++ d :: t) = pieces isSep s ++ pieces isSep t := by
  induction s with
  | nil => simp [pieces_cons, hd]
  | cons c s ih =>
      rw [List.cons_append, pieces_cons, pieces_cons, ih]
      obtain ⟨h, u, heq⟩ := exists_pieces_eq_cons isSep s
      split
      · simp
      · rw [heq]
        rfl

theorem pieces_congr {isSep' : Char → Bool} {s : Str} (h : ∀ c ∈ s, isSep c = isSep' c) :
    pieces isSep s = pieces isSep' s := by
  induction s with
  | nil => rfl
  | cons c s ih =>
      rw [pieces_cons, pieces_cons, h c List.mem_cons_self,
        ih fun d hd => h d (List.mem_cons_of_mem _ hd)]

theorem mem_of_mem_pieces {s q : Str} (hq : q ∈ pieces isSep s) {c : Char} (hc : c ∈ q) :
    c ∈ s := by
  induction s generalizing q with
  | nil =>
      rw [pieces_nil, List.mem_singleton] at hq
      exact hq ▸ hc
  | cons d s ih =>
      rw [pieces_cons] at hq
      split at hq
      · rcases List.mem_cons.mp hq with rfl | hq
        · cases hc
        · exact List.mem_cons_of_mem _ (ih hq hc)
      · obtain ⟨h, t, heq⟩ := exists_pieces_eq_cons isSep s
        rw [heq, List.modifyHead_cons] at hq
        rcases List.mem_cons.mp hq with rfl | hq
        · rcases List.mem_cons.mp hc with rfl | hc
          · exact List.mem_cons_self
          · exact List.mem_cons_of_mem _ (ih (heq ▸ List.mem_cons_self) hc)
        · exact List.mem_cons_of_mem _ (ih (heq ▸ List.mem_cons_of_mem _ hq) hc)

end Pieces

/-- `table.concat(ps, sep)`. -/
def concat (sep : Char) (ps : List Str) : Str := [sep].intercalate ps

section Concat

variable {isSep : Char → Bool} {sep : Char}

@[simp] theorem concat_nil : concat sep [] = [] := rfl

@[simp] theorem concat_singleton (p : Str) : concat sep [p] = p := by
  simp [concat]

theorem concat_cons_cons (p q : Str) (ps : List Str) :
    concat sep (p :: q :: ps) = p ++ sep :: concat sep (q :: ps) := by
  simp [concat, List.intercalate]

theorem concat_cons {ps : List Str} (hps : ps ≠ []) (p : Str) :
    concat sep (p :: ps) = p ++ sep :: concat sep ps := by
  obtain ⟨q, qs, rfl⟩ := List.exists_cons_of_ne_nil hps
  exact concat_cons_cons p q qs

/-- Cutting a concatenation at its separators gives the pieces back. -/
theorem pieces_concat (hsep : isSep sep = true) {ps : List Str} (hne : ps ≠ [])
    (hps : ∀ p ∈ ps, ∀ c ∈ p, isSep c = false) :
    pieces isSep (concat sep ps) = ps := by
  induction ps with
  | nil => exact absurd rfl hne
  | cons p ps ih =>
      have hp : ∀ c ∈ p, isSep c = false := hps p (by simp)
      by_cases hnil : ps = []
      · subst hnil
        rw [concat_singleton, pieces_of_forall_not_sep hp]
      · rw [concat_cons hnil, pieces_append_sep hp hsep,
          ih hnil fun q hq => hps q (by simp [hq])]

theorem mem_concat_of_mem {c : Char} {ps : List Str} {p : Str} (hp : p ∈ ps) (hc : c ∈ p) :
    c ∈ concat sep ps := by
  induction ps with
  | nil => cases hp
  | cons q ps ih =>
      by_cases hnil : ps = []
      · subst hnil
        rw [concat_singleton]
        rwa [← List.mem_singleton.mp hp]
      · rw [concat_cons hnil]
        rcases List.mem_cons.mp hp with rfl | hp
        · exact List.mem_append_left _ hc
        · exact List.mem_append_right _ (List.mem_cons_of_mem _ (ih hp))

theorem mem_concat {sep c : Char} {ps : List Str} (h : c ∈ concat sep ps) :
    c = sep ∨ ∃ q ∈ ps, c ∈ q := by
  induction ps with
  | nil => cases h
  | cons q ps ih =>
      by_cases hnil : ps = []
      · subst hnil
        rw [concat_singleton] at h
        exact .inr ⟨q, List.mem_cons_self, h⟩
      · rw [concat_cons hnil, List.mem_append, List.mem_cons] at h
        rcases h with h | h | h
        · exact .inr ⟨q, List.mem_cons_self, h⟩
        · exact .inl h
        · exact (ih h).imp_right fun ⟨r, hr, hc⟩ => ⟨r, List.mem_cons_of_mem _ hr, hc⟩

/-- Putting the pieces together at the separators gives the text back. -/
theorem concat_pieces (s : Str) : concat sep (pieces (fun c => c = sep) s) = s := by
  have hsep : (fun c : Char => decide (c = sep)) = (· == sep) := by
    funext c
    rfl
  rw [pieces, hsep]
  exact List.intercalate_splitOn sep

theorem concat_append {ps qs : List Str} (hps : ps ≠ []) (hqs : qs ≠ []) :
    concat sep (ps ++ qs) = concat sep ps ++ sep :: concat sep qs := by
  induction ps with
  | nil => exact absurd rfl hps
  | cons p ps ih =>
      by_cases hnil : ps = []
      · subst hnil
        rw [List.cons_append, List.nil_append, concat_cons hqs, concat_singleton]
      · rw [List.cons_append, concat_cons (by simp [hnil]), ih hnil, concat_cons hnil,
          List.append_assoc, List.cons_append]

end Concat

end Puremake
