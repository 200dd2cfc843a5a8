import Mathlib.Algebra.Order.BigOperators.Group.Finset
import Mathlib.Data.Finset.Card
import Puremake.Xml.Escape

/-!
# The values of XML attributes

A value stands between double quotes. The reader takes a quote for the end of the value and a
reference, from an ampersand to a semicolon, for the character that it stands for; a reference
that stands for nothing, or a `<`, makes the value malformed. White space is left as it is
written: the reader does not normalize a value, for which a tab or a line break is a blank.

A text is read as itself exactly when it has none of the three characters that mean something,
and what `premake.esc` writes is always read as what was escaped.
-/

namespace Puremake

namespace Xml

def digit (c : Char) : Option ℕ :=
  if '0' ≤ c ∧ c ≤ '9' then some (c.toNat - '0'.toNat)
  else if 'a' ≤ c ∧ c ≤ 'f' then some (c.toNat - 'a'.toNat + 10)
  else if 'A' ≤ c ∧ c ≤ 'F' then some (c.toNat - 'A'.toNat + 10)
  else none

def number (base : ℕ) (ds : Str) : Option ℕ :=
  if ds = [] then none
  else ds.foldlM (fun n d => (digit d).bind fun v =>
    if v < base then some (n * base + v) else none) 0

def predefined : List (Str × Char) :=
  [("amp".toList, '&'), ("lt".toList, '<'), ("gt".toList, '>'), ("quot".toList, '"'),
    ("apos".toList, '\x27')]

/-- The character that a reference stands for, by what is between `&` and `;`. -/
def reference (body : Str) : Option Char :=
  match body with
  | '#' :: 'x' :: ds => (number 16 ds).map Char.ofNat
  | '#' :: ds => (number 10 ds).map Char.ofNat
  | _ => predefined.lookup body

/-- A value is read up to the quote, with what is left behind it. Inside of a reference, what has
been read of it is kept, the last character first. -/
def readValue : Option Str → Str → Option (Str × Str)
  | _, [] => none
  | none, c :: s =>
      if c = '"' then some ([], s)
      else if c = '<' then none
      else if c = '&' then readValue (some []) s
      else (readValue none s).map fun v => (c :: v.1, v.2)
  | some body, c :: s =>
      if c = ';' then (reference body.reverse).bind fun d =>
        (readValue none s).map fun v => (d :: v.1, v.2)
      else readValue (some (c :: body)) s

/-- The value that is read when a text is written between two quotes; there is none when the text
is malformed or does not reach to the second one. -/
def attrValue (s : Str) : Option Str :=
  (readValue none (s ++ ['"'])).bind fun v => if v.2 = [] then some v.1 else none

/-- A text without the characters that mean something in a value. -/
def Literal (s : Str) : Prop := ∀ c ∈ ['&', '<', '"'], c ∉ s

instance (s : Str) : Decidable (Literal s) :=
  inferInstanceAs (Decidable (∀ c ∈ ['&', '<', '"'], c ∉ s))

section Literal

variable {c : Char} {s w r : Str} {body : Option Str}

theorem literal_cons : Literal (c :: s) ↔ (c ≠ '&' ∧ c ≠ '<' ∧ c ≠ '"') ∧ Literal s := by
  simp only [Literal, List.mem_cons, List.not_mem_nil, or_false, forall_eq_or_imp, forall_eq,
    not_or, ne_comm, ne_eq]
  tauto

theorem readValue_cons (h : c ≠ '&' ∧ c ≠ '<' ∧ c ≠ '"') (s : Str) :
    readValue none (c :: s) = (readValue none s).map fun v => (c :: v.1, v.2) := by
  rw [readValue, if_neg h.2.2, if_neg h.2.1, if_neg h.1]

theorem readValue_literal (h : Literal s) (r : Str) :
    readValue none (s ++ '"' :: r) = some (s, r) := by
  induction s with
  | nil => rfl
  | cons c s ih =>
      obtain ⟨hc, hs⟩ := literal_cons.mp h
      rw [List.cons_append, readValue_cons hc, ih hs]
      rfl

theorem length_of_readValue (h : readValue body s = some (w, r)) :
    w.length + r.length + 1 ≤ s.length := by
  induction s generalizing body w with
  | nil => cases body <;> cases h
  | cons c s ih =>
      rw [List.length_cons]
      have hpush : ∀ d, ((readValue none s).map fun v => (d :: v.1, v.2)) = some (w, r) →
          w.length + r.length ≤ s.length := by
        intro d hd
        obtain ⟨v, hv, heq⟩ := Option.map_eq_some_iff.mp hd
        obtain ⟨rfl, rfl⟩ := Prod.mk.inj heq
        have hle := ih hv
        rw [List.length_cons]
        omega
      cases body with
      | none =>
          rw [readValue] at h
          split at h
          · obtain ⟨rfl, rfl⟩ := Prod.mk.inj (Option.some.inj h)
            simp
          · split at h
            · cases h
            · split at h
              · exact Nat.le_trans (ih h) (Nat.le_succ _)
              · exact Nat.succ_le_succ (hpush c h)
      | some body =>
          rw [readValue] at h
          split at h
          · obtain ⟨d, -, hd⟩ := Option.bind_eq_some_iff.mp h
            exact Nat.succ_le_succ (hpush d hd)
          · exact Nat.le_trans (ih h) (Nat.le_succ _)

theorem literal_of_readValue (h : readValue none s = some (w, r))
    (hlen : w.length + r.length + 1 = s.length) : s = w ++ '"' :: r ∧ Literal w := by
  induction s generalizing w with
  | nil => cases h
  | cons c s ih =>
      rw [List.length_cons] at hlen
      rw [readValue] at h
      split at h
      · rename_i hc
        obtain ⟨rfl, rfl⟩ := Prod.mk.inj (Option.some.inj h)
        exact ⟨by rw [hc]; rfl, fun _ _ => List.not_mem_nil⟩
      · rename_i hquot
        split at h
        · cases h
        · rename_i hlt
          split at h
          · have hle := length_of_readValue h
            omega
          · rename_i hamp
            obtain ⟨v, hv, heq⟩ := Option.map_eq_some_iff.mp h
            obtain ⟨rfl, rfl⟩ := Prod.mk.inj heq
            rw [List.length_cons] at hlen
            obtain ⟨hs, hlit⟩ := ih hv (by omega)
            exact ⟨by rw [hs]; rfl, literal_cons.mpr ⟨⟨hamp, hlt, hquot⟩, hlit⟩⟩

end Literal

section Attribute

variable {s w : Str} {names : List Str}

theorem attrValue_eq_some : attrValue s = some w ↔ readValue none (s ++ ['"']) = some (w, []) := by
  rw [attrValue, Option.bind_eq_some_iff]
  constructor
  · rintro ⟨v, hv, hw⟩
    split at hw
    · rename_i hnil
      rw [hv, ← hnil, ← Option.some.inj hw]
    · cases hw
  · intro h
    exact ⟨_, h, if_pos rfl⟩

theorem length_attrValue_le (h : attrValue s = some w) : w.length ≤ s.length := by
  have hle := length_of_readValue (attrValue_eq_some.mp h)
  simpa using hle

theorem literal_of_attrValue (h : attrValue s = some w) (hlen : w.length = s.length) :
    w = s ∧ Literal s := by
  obtain ⟨heq, hlit⟩ := literal_of_readValue (attrValue_eq_some.mp h) (by simp [hlen])
  obtain rfl := List.append_cancel_right heq
  exact ⟨rfl, hlit⟩

theorem attrValue_eq_self_iff : attrValue s = some s ↔ Literal s :=
  ⟨fun h => (literal_of_attrValue h rfl).2, fun h => attrValue_eq_some.mpr (readValue_literal h [])⟩

/-- When the values that are read for some names are these names, in any order and however often,
every name is literal: a value is not longer than its text, so none of them is shorter, either. -/
theorem literal_of_values
    (h : ∀ v, (∃ s ∈ names, v = attrValue s) ↔ ∃ s ∈ names, v = some s) :
    ∀ s ∈ names, Literal s := by
  let read (s : Str) : Str := (attrValue s).getD []
  have hread : ∀ s ∈ names, attrValue s = some (read s) ∧ read s ∈ names := by
    intro s hs
    obtain ⟨w, hw, heq⟩ := (h (attrValue s)).mp ⟨s, hs, rfl⟩
    rw [show read s = w by simp only [read, heq, Option.getD_some]]
    exact ⟨heq, hw⟩
  have hsurj : names.toFinset.image read = names.toFinset := by
    ext w
    rw [Finset.mem_image, List.mem_toFinset]
    constructor
    · rintro ⟨s, hs, rfl⟩
      exact (hread s (List.mem_toFinset.mp hs)).2
    · intro hw
      obtain ⟨s, hs, heq⟩ := (h (some w)).mpr ⟨w, hw, rfl⟩
      refine ⟨s, List.mem_toFinset.mpr hs, ?_⟩
      simp only [read, ← heq, Option.getD_some]
  have hinj : Set.InjOn read names.toFinset :=
    Finset.card_image_iff.mp (congrArg Finset.card hsurj)
  have hsum : ∑ s ∈ names.toFinset, (read s).length = ∑ s ∈ names.toFinset, s.length := by
    rw [← Finset.sum_image hinj, hsurj]
  have hle : ∀ s ∈ names.toFinset, (read s).length ≤ s.length := fun s hs =>
    length_attrValue_le (hread s (List.mem_toFinset.mp hs)).1
  intro s hs
  have hlen := (Finset.sum_eq_sum_iff_of_le hle).mp hsum s (List.mem_toFinset.mpr hs)
  exact (literal_of_attrValue (hread s hs).1 hlen).2

theorem readValue_entity {e : Char × Str} (he : e ∈ entities.entries) (s : Str) :
    readValue none (e.2 ++ s) = (readValue none s).map fun v => (e.1 :: v.1, v.2) := by
  simp only [entities, List.mem_cons, List.not_mem_nil, or_false] at he
  rcases he with rfl | rfl | rfl | rfl | rfl | rfl | rfl <;> rfl

theorem attrValue_escText (s : Str) : attrValue (escText s) = some s := by
  rw [attrValue_eq_some, escText_eq]
  induction s with
  | nil => rfl
  | cons c s ih =>
      rw [Escape.encode_cons, List.append_assoc]
      by_cases hc : c ∈ entities.entries.map Prod.fst
      · obtain ⟨e, he, rfl, hcode⟩ := Escape.exists_code_eq hc
        rw [hcode, readValue_entity he, ih]
        rfl
      · have hplain : c ≠ '&' ∧ c ≠ '<' ∧ c ≠ '"' := by
          refine ⟨?_, ?_, ?_⟩ <;> rintro rfl <;> exact hc (by simp [entities])
        rw [Escape.code_of_notMem hc, List.singleton_append, readValue_cons hplain, ih]
        rfl

end Attribute

end Xml

end Puremake
