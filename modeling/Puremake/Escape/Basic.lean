import Mathlib.Data.List.Basic

/-!
# Escaping characters

An escaping writes some characters of a text as words. A writer that has only an operation
that replaces one character everywhere goes through the characters one after the other, and
`replaceAll` is what it gets: each replacement works on the output of the ones before it. The
writing that is meant is `encode`, which looks at each character once. The two agree when no
word has a character that is replaced later.

`decode` reads a text back: where a word begins it takes the word for its character, and any
other character for itself. It undoes `encode` when no word is the beginning of another one
and every word begins with a character that is itself escaped.
-/

namespace Puremake

namespace Escape

variable {α : Type*} [DecidableEq α]

def replace (a : α) (w : List α) (s : List α) : List α :=
  s.flatMap fun c => if c = a then w else [c]

def replaceAll (entries : List (α × List α)) (s : List α) : List α :=
  entries.foldl (fun s e => replace e.1 e.2 s) s

def code (entries : List (α × List α)) (c : α) : List α :=
  match entries.find? fun e => e.1 = c with
  | some e => e.2
  | none => [c]

def encode (entries : List (α × List α)) (s : List α) : List α := s.flatMap (code entries)

/-- A text behind its first `n` characters, read back. -/
def decodeFrom (entries : List (α × List α)) : ℕ → List α → List α
  | _, [] => []
  | n + 1, _ :: s => decodeFrom entries n s
  | 0, c :: s =>
      match entries.find? fun e => e.2.isPrefixOf (c :: s) with
      | some e => e.1 :: decodeFrom entries (e.2.length - 1) s
      | none => c :: decodeFrom entries 0 s

def decode (entries : List (α × List α)) (s : List α) : List α := decodeFrom entries 0 s

/-- The entries of an escaping: a word begins with a character that is escaped, it has no
character that is replaced later, and it is not the beginning of the word of another entry. -/
structure Escaping (α : Type*) where
  entries : List (α × List α)
  begins : ∀ e ∈ entries, ∃ a ∈ e.2.head?, a ∈ entries.map Prod.fst
  inOrder : entries.Pairwise fun e e' => e'.1 ∉ e.2
  distinct : ∀ e ∈ entries, ∀ e' ∈ entries, e.2 <+: e'.2 → e = e'

section ReplaceAll

theorem replace_append (a : α) (w s t : List α) :
    replace a w (s ++ t) = replace a w s ++ replace a w t :=
  List.flatMap_append

theorem replace_of_notMem {a : α} {s : List α} (h : a ∉ s) (w : List α) : replace a w s = s := by
  induction s with
  | nil => rfl
  | cons c s ih =>
      rw [List.mem_cons, not_or] at h
      rw [replace, List.flatMap_cons, if_neg (Ne.symm h.1), ← replace, ih h.2]
      rfl

theorem replaceAll_append (entries : List (α × List α)) (s t : List α) :
    replaceAll entries (s ++ t) = replaceAll entries s ++ replaceAll entries t := by
  induction entries generalizing s t with
  | nil => rfl
  | cons e entries ih =>
      rw [replaceAll, List.foldl_cons, replace_append]
      exact ih _ _

theorem replaceAll_of_forall {entries : List (α × List α)} {s : List α}
    (h : ∀ e ∈ entries, e.1 ∉ s) : replaceAll entries s = s := by
  induction entries with
  | nil => rfl
  | cons e entries ih =>
      rw [replaceAll, List.foldl_cons, replace_of_notMem (h e List.mem_cons_self)]
      exact ih fun e' he' => h e' (List.mem_cons_of_mem _ he')

theorem replaceAll_singleton {entries : List (α × List α)}
    (h : entries.Pairwise fun e e' => e'.1 ∉ e.2) (c : α) :
    replaceAll entries [c] = code entries c := by
  induction entries with
  | nil => rfl
  | cons e entries ih =>
      rw [List.pairwise_cons] at h
      by_cases hc : e.1 = c
      · have hreplace : replace e.1 e.2 [c] = e.2 := by simp [replace, hc]
        have hcode : code (e :: entries) c = e.2 := by simp [code, hc]
        rw [replaceAll, List.foldl_cons, hreplace, hcode]
        exact replaceAll_of_forall h.1
      · have hreplace : replace e.1 e.2 [c] = [c] := by simp [replace, Ne.symm hc]
        have hcode : code (e :: entries) c = code entries c := by simp [code, hc]
        rw [replaceAll, List.foldl_cons, hreplace, hcode]
        exact ih h.2

/-- Replacing one character after the other is writing each character once, when no word has
a character that is replaced later. -/
theorem replaceAll_eq_encode {entries : List (α × List α)}
    (h : entries.Pairwise fun e e' => e'.1 ∉ e.2) (s : List α) :
    replaceAll entries s = encode entries s := by
  induction s with
  | nil => exact replaceAll_of_forall fun _ _ => List.not_mem_nil
  | cons c s ih =>
      rw [← List.singleton_append, replaceAll_append, replaceAll_singleton h, ih]
      rfl

end ReplaceAll

section Encode

variable {entries : List (α × List α)} {s : List α} {c : α}

@[simp] theorem encode_nil : encode entries [] = [] := rfl

theorem encode_cons (c : α) (s : List α) :
    encode entries (c :: s) = code entries c ++ encode entries s := rfl

theorem code_of_notMem (h : c ∉ entries.map Prod.fst) : code entries c = [c] := by
  have hfind : entries.find? (fun e => e.1 = c) = none :=
    List.find?_eq_none.mpr fun e he hec => h (List.mem_map.mpr ⟨e, he, by simpa using hec⟩)
  rw [code, hfind]

theorem exists_code_eq (h : c ∈ entries.map Prod.fst) :
    ∃ e ∈ entries, e.1 = c ∧ code entries c = e.2 := by
  obtain ⟨e, he, hec⟩ := List.mem_map.mp h
  obtain ⟨e', hfind⟩ := Option.isSome_iff_exists.mp
    (List.find?_isSome.mpr ⟨e, he, by simpa using hec⟩ : (entries.find? fun e => e.1 = c).isSome)
  refine ⟨e', List.mem_of_find?_eq_some hfind, by simpa using List.find?_some hfind, ?_⟩
  rw [code, hfind]

/-- A change of characters that leaves the escaped ones and the words alone can be made before or
after the escaping. -/
theorem map_encode {g : α → α} (hword : ∀ e ∈ entries, g e.1 = e.1 ∧ ∀ c ∈ e.2, g c = c)
    (hkey : ∀ c, c ∉ entries.map Prod.fst → g c ∉ entries.map Prod.fst) (s : List α) :
    (encode entries s).map g = encode entries (s.map g) := by
  induction s with
  | nil => rfl
  | cons c s ih =>
      have hcode : (code entries c).map g = code entries (g c) := by
        by_cases hc : c ∈ entries.map Prod.fst
        · obtain ⟨e, he, rfl, hcode⟩ := exists_code_eq hc
          rw [(hword e he).1, hcode]
          exact (List.map_congr_left (hword e he).2).trans (List.map_id _)
        · rw [code_of_notMem hc, code_of_notMem (hkey c hc)]
          rfl
      rw [encode_cons, List.map_append, hcode, ih, List.map_cons, encode_cons]

/-- A character of the text that is written is not escaped, or it belongs to a word. -/
theorem mem_encode (h : c ∈ encode entries s) :
    c ∉ entries.map Prod.fst ∧ c ∈ s ∨ ∃ e ∈ entries, c ∈ e.2 := by
  obtain ⟨d, hd, hc⟩ := List.mem_flatMap.mp h
  by_cases hkey : d ∈ entries.map Prod.fst
  · obtain ⟨e, he, -, hcode⟩ := exists_code_eq hkey
    exact .inr ⟨e, he, hcode ▸ hc⟩
  · rw [code_of_notMem hkey, List.mem_singleton] at hc
    exact .inl (hc ▸ ⟨hkey, hd⟩)

/-- A character that only stands at the beginning of words stands only at the beginning of words
in the text that is written. -/
theorem exists_word_of_encode {a : α} (hkey : a ∈ entries.map Prod.fst)
    (htail : ∀ e ∈ entries, a ∉ e.2.tail) {pre post : List α}
    (h : encode entries s = pre ++ a :: post) : ∃ e ∈ entries, e.2 <+: a :: post := by
  induction s generalizing pre with
  | nil => simp at h
  | cons c s ih =>
      rw [encode_cons, List.append_eq_append_iff] at h
      rcases h with ⟨mid, rfl, h⟩ | ⟨mid, hcode, h⟩
      · exact ih h
      · by_cases hc : c ∈ entries.map Prod.fst
        · obtain ⟨e, he, -, hword⟩ := exists_code_eq hc
          rw [hword] at hcode
          cases mid with
          | nil =>
              exact @ih [] h.symm
          | cons d mid =>
              obtain ⟨rfl, rfl⟩ := List.cons.inj h
              cases pre with
              | nil => exact ⟨e, he, hcode ▸ List.prefix_append _ _⟩
              | cons p pre =>
                  refine absurd ?_ (htail e he)
                  rw [hcode]
                  simp
        · rw [code_of_notMem hc] at hcode
          cases mid with
          | nil => exact @ih [] h.symm
          | cons d mid =>
              obtain ⟨rfl, rfl⟩ := List.cons.inj h
              have hmem : a ∈ [c] := by
                rw [hcode]
                simp
              rw [List.mem_singleton.mp hmem] at hkey
              exact absurd hkey hc

end Encode

section Decode

variable {entries : List (α × List α)} {s : List α} {c : α}

theorem decodeFrom_length_append (w s : List α) :
    decodeFrom entries w.length (w ++ s) = decodeFrom entries 0 s := by
  induction w with
  | nil => rfl
  | cons c w ih => exact ih

theorem decode_of_forall (h : ∀ e ∈ entries, ¬ e.2 <+: c :: s) :
    decode entries (c :: s) = c :: decode entries s := by
  have hfind : entries.find? (fun e => e.2.isPrefixOf (c :: s)) = none :=
    List.find?_eq_none.mpr fun e he hpre => h e he (List.isPrefixOf_iff_prefix.mp hpre)
  rw [decode, decodeFrom, hfind]
  rfl

end Decode

section Escaping

variable (E : Escaping α)

theorem decode_word {e : α × List α} (he : e ∈ E.entries) (s : List α) :
    decode E.entries (e.2 ++ s) = e.1 :: decode E.entries s := by
  obtain ⟨a, ha, -⟩ := E.begins e he
  obtain ⟨w, hw⟩ := List.head?_eq_some_iff.mp ha
  obtain ⟨e', hfind⟩ := Option.isSome_iff_exists.mp
    (List.find?_isSome.mpr ⟨e, he, List.isPrefixOf_iff_prefix.mpr (List.prefix_append e.2 s)⟩ :
      (E.entries.find? fun e' => e'.2.isPrefixOf (e.2 ++ s)).isSome)
  have he' := List.mem_of_find?_eq_some hfind
  have hfound := List.find?_some hfind
  have hstart : e'.2 <+: e.2 ++ s := List.isPrefixOf_iff_prefix.mp hfound
  obtain rfl : e' = e := by
    rcases List.prefix_or_prefix_of_prefix hstart (List.prefix_append e.2 s) with h | h
    · exact E.distinct e' he' e he h
    · exact (E.distinct e he e' he' h).symm
  rw [hw, List.cons_append] at hfind
  have hlength : e'.2.length - 1 = w.length := by rw [hw, List.length_cons, Nat.add_sub_cancel]
  rw [decode, hw, List.cons_append, decodeFrom, hfind]
  simp only [hlength, decodeFrom_length_append]
  rfl

theorem decode_cons (hc : c ∉ E.entries.map Prod.fst) (s : List α) :
    decode E.entries (c :: s) = c :: decode E.entries s := by
  refine decode_of_forall fun e he hstart => ?_
  obtain ⟨a, ha, hkey⟩ := E.begins e he
  obtain ⟨w, hw⟩ := List.head?_eq_some_iff.mp ha
  rw [hw, List.cons_prefix_cons] at hstart
  exact hc (hstart.1 ▸ hkey)

theorem decode_encode (s : List α) : decode E.entries (encode E.entries s) = s := by
  induction s with
  | nil => rfl
  | cons c s ih =>
      rw [encode_cons]
      by_cases hc : c ∈ E.entries.map Prod.fst
      · obtain ⟨e, he, rfl, hcode⟩ := exists_code_eq hc
        rw [hcode, decode_word E he, ih]
      · rw [code_of_notMem hc, List.singleton_append, decode_cons E hc, ih]

theorem replaceAll_eq (s : List α) : replaceAll E.entries s = encode E.entries s :=
  replaceAll_eq_encode E.inOrder s

end Escaping

end Escape

end Puremake
