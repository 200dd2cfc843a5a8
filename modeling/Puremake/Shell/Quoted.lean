import Puremake.Lua.Str

/-!
# Quoted texts of property lists

In an old-style property list a text stands between double quotes, and a backslash gives the
character behind it another meaning. `unquote` reads what stands between the quotes. Octal
and Unicode escapes are left open, as is a text that ends too early or too late.

A writer that only puts a backslash in front of each quote is read back as it wrote exactly
when there was no backslash in the text.
-/

namespace Puremake

namespace Quoted

def meaning (c : Char) : Option Char :=
  if c = 'n' then some '\n'
  else if c = 't' then some '\t'
  else if c = 'r' then some '\r'
  else if c = 'a' then some '\x07'
  else if c = 'b' then some '\x08'
  else if c = 'v' then some '\x0b'
  else if c = 'f' then some '\x0c'
  else if c = 'U' ∨ ('0' ≤ c ∧ c ≤ '7') then none
  else some c

def unquote : Str → Option Str
  | [] => some []
  | '\\' :: c :: s => (meaning c).bind fun d => (unquote s).map (d :: ·)
  | c :: s => if c = '\\' ∨ c = '"' then none else (unquote s).map (c :: ·)

def escapeQuotes (s : Str) : Str := s.flatMap fun c => if c = '"' then ['\\', '"'] else [c]

/-- What is read back of a text in which only the quotes are escaped. -/
def readBack (s : Str) : Option Str := unquote (escapeQuotes s)

def asRead (s : Str) : Str := (readBack s).getD []

section Unquote

variable {s t : Str} {c : Char}

theorem unquote_cons (hc : c ≠ '\\') (hquote : c ≠ '"') (s : Str) :
    unquote (c :: s) = (unquote s).map (c :: ·) := by
  rw [unquote.eq_3 c s fun d u h => absurd h hc, if_neg (by simp [hc, hquote])]

theorem unquote_append (h : unquote s = some t) (rest : Str) :
    unquote (s ++ rest) = (unquote rest).map (t ++ ·) := by
  induction s using unquote.induct generalizing t with
  | case1 =>
      obtain rfl := Option.some.inj h
      simp
  | case2 c s ih =>
      rw [unquote] at h
      obtain ⟨d, hd, h⟩ := Option.bind_eq_some_iff.mp h
      obtain ⟨u, hu, rfl⟩ := Option.map_eq_some_iff.mp h
      rw [List.cons_append, List.cons_append, unquote, hd, ih hu]
      simp [Function.comp_def]
  | case3 c s hcons hstop =>
      rw [unquote.eq_3 c s hcons, if_pos hstop] at h
      cases h
  | case4 c s hcons hstop ih =>
      rw [unquote.eq_3 c s hcons, if_neg hstop] at h
      obtain ⟨u, hu, rfl⟩ := Option.map_eq_some_iff.mp h
      rw [not_or] at hstop
      rw [List.cons_append, unquote_cons hstop.1 hstop.2, ih hu]
      simp [Function.comp_def]

theorem unquote_eq_none (hc : c = '"' ∨ c = '\\' ∧ s = []) : unquote (c :: s) = none := by
  rcases hc with rfl | ⟨rfl, rfl⟩
  · rw [unquote.eq_3 _ s fun d u h => absurd h (by decide), if_pos (.inr rfl)]
  · rfl

end Unquote

section ReadBack

variable {s t : Str} {c : Char}

theorem escapeQuotes_append (s t : Str) :
    escapeQuotes (s ++ t) = escapeQuotes s ++ escapeQuotes t :=
  List.flatMap_append

theorem escapeQuotes_cons_of_ne (hc : c ≠ '"') (s : Str) :
    escapeQuotes (c :: s) = c :: escapeQuotes s := by
  rw [escapeQuotes, List.flatMap_cons, if_neg hc]
  rfl

@[simp] theorem readBack_nil : readBack [] = some [] := rfl

theorem readBack_quote (s : Str) : readBack ('"' :: s) = (readBack s).map ('"' :: ·) := by
  have hmeaning : meaning '"' = some '"' := by decide
  have hescape : escapeQuotes ('"' :: s) = '\\' :: '"' :: escapeQuotes s := rfl
  rw [readBack, hescape, unquote, hmeaning]
  rfl

theorem readBack_cons (hc : c ≠ '\\') (s : Str) :
    readBack (c :: s) = (readBack s).map (c :: ·) := by
  by_cases hquote : c = '"'
  · rw [hquote, readBack_quote]
  · rw [readBack, escapeQuotes_cons_of_ne hquote, unquote_cons hc hquote]
    rfl

theorem readBack_backslash (s : Str) : readBack ('\\' :: c :: s) =
    if c = '"' then none else (meaning c).bind fun d => (readBack s).map (d :: ·) := by
  have hescape := escapeQuotes_cons_of_ne (c := '\\') (by decide) (c :: s)
  split
  · rename_i hquote
    subst hquote
    have hinner : escapeQuotes ('"' :: s) = '\\' :: '"' :: escapeQuotes s := rfl
    have hmeaning : meaning '\\' = some '\\' := by decide
    rw [readBack, hescape, hinner, unquote, hmeaning, unquote_eq_none (.inl rfl)]
    rfl
  · rename_i hquote
    rw [readBack, hescape, escapeQuotes_cons_of_ne hquote, unquote]
    rfl

/-- A backslash is used up, together with the character that it changes. -/
theorem length_of_readBack (h : readBack s = some t) :
    t.length ≤ s.length ∧ ('\\' ∈ s → t.length < s.length) := by
  induction hn : s.length using Nat.strongRecOn generalizing s t with
  | _ n ih =>
      subst hn
      match s with
      | [] =>
          obtain rfl := Option.some.inj h
          simp
      | [c] =>
          by_cases hc : c = '\\'
          · subst hc
            cases h
          · rw [readBack_cons hc, readBack_nil] at h
            obtain rfl := Option.some.inj h
            simp [Ne.symm hc]
      | c :: d :: s =>
          by_cases hc : c = '\\'
          · subst hc
            rw [readBack_backslash] at h
            split at h
            · cases h
            · obtain ⟨e, -, h⟩ := Option.bind_eq_some_iff.mp h
              obtain ⟨u, hu, rfl⟩ := Option.map_eq_some_iff.mp h
              have hlength : s.length < ('\\' :: d :: s).length := by
                rw [List.length_cons, List.length_cons]
                omega
              have hle := (ih s.length hlength hu rfl).1
              simp only [List.length_cons]
              omega
          · rw [readBack_cons hc] at h
            obtain ⟨u, hu, rfl⟩ := Option.map_eq_some_iff.mp h
            obtain ⟨hle, hlt⟩ := ih (d :: s).length (by simp) hu rfl
            refine ⟨Nat.succ_le_succ hle, fun hmem => Nat.succ_lt_succ (hlt ?_)⟩
            exact (List.mem_cons.mp hmem).resolve_left (Ne.symm hc)

/-- A text is read back as it is when there is no backslash in it. -/
theorem readBack_of_notMem (h : '\\' ∉ s) : readBack s = some s := by
  induction s with
  | nil => rfl
  | cons c s ih =>
      rw [List.mem_cons, not_or] at h
      rw [readBack_cons (Ne.symm h.1), ih h.2]
      rfl

theorem readBack_eq_self_iff : readBack s = some s ↔ '\\' ∉ s :=
  ⟨fun h hmem => absurd ((length_of_readBack h).2 hmem) (Nat.lt_irrefl _), readBack_of_notMem⟩

theorem readBack_append {r : Str} (h : readBack s = some r) (rest : Str) :
    readBack (s ++ rest) = (readBack rest).map (r ++ ·) := by
  rw [readBack, escapeQuotes_append, unquote_append h]
  rfl

theorem asRead_of_readBack (h : readBack s = some t) : asRead s = t := by
  rw [asRead, h, Option.getD_some]

theorem readBack_eq_asRead (h : ∃ t, readBack s = some t) : readBack s = some (asRead s) := by
  obtain ⟨t, ht⟩ := h
  rw [asRead_of_readBack ht, ht]

theorem asRead_eq_self_iff (h : ∃ t, readBack s = some t) : asRead s = s ↔ '\\' ∉ s := by
  rw [← readBack_eq_self_iff, readBack_eq_asRead h, Option.some_inj]

/-- Texts with a written line break between them are read back as lines. -/
theorem readBack_intercalate {lines : List Str} (h : ∀ line ∈ lines, ∃ t, readBack line = some t) :
    readBack (['\\', 'n'].intercalate lines) = some (concat '\n' (lines.map asRead)) := by
  induction lines with
  | nil => rfl
  | cons line lines ih =>
      have hline := readBack_eq_asRead (h line List.mem_cons_self)
      cases lines with
      | nil => simpa using hline
      | cons next lines =>
          have hbreak : readBack ['\\', 'n'] = some ['\n'] := by decide
          have hrest := ih fun l hl => h l (List.mem_cons_of_mem _ hl)
          rw [List.intercalate_cons_cons, List.append_assoc, readBack_append hline,
            readBack_append hbreak, hrest]
          simp [concat_cons_cons]

end ReadBack

end Quoted

end Puremake
