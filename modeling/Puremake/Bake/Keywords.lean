import Puremake.Bake.Terms
import Puremake.Lua.Glob

/-!
# What the keywords of a block match

A word is made a pattern first and put in lower case afterwards, and only then are the
negations in front taken away and the alternatives split. None of this matters: the
pattern has the negations and the alternatives of the word, in lower case, and every
alternative is the pattern of an alternative. So a keyword matches as the wildcards in
its word say, as long as these have no magic characters. The terms are compared as they
are, so that capital letters in a term are only matched by a star.
-/

namespace Puremake

def stripNots : Str → ℕ × Str
  | 'n' :: 'o' :: 't' :: ' ' :: w => ((stripNots w).1 + 1, (stripNots w).2)
  | w => (0, w)

/-- One of the alternatives of a word matches one of the terms as a whole, in lower case. -/
def SomeMatches (w : Str) (terms : List Str) : Prop :=
  ∃ alternative ∈ explodeOr [] w, ∃ term ∈ terms,
    GlobMatches (Str.lower alternative) (Str.lower term)

def Says (w : Str) (terms : List Str) : Prop :=
  if (stripNots w).1 % 2 = 0 then SomeMatches (stripNots w).2 terms
  else ¬ SomeMatches (stripNots w).2 terms

/-- The word has no negations and alternatives that are seen in lower case only. -/
def KeepsWords (w : Str) : Prop :=
  stripNots (Str.lower w) = ((stripNots w).1, Str.lower (stripNots w).2) ∧
    explodeOr [] (Str.lower (stripNots w).2) = (explodeOr [] (stripNots w).2).map Str.lower

/-- The alternatives of the word have no characters that a pattern would take otherwise. -/
def Unmagical (w : Str) : Prop :=
  ∀ alternative ∈ explodeOr [] (stripNots w).2, Unmagic false (Str.lower alternative)

/-- When an alternative of the word matches a term in lower case, an alternative matches a term
as it is. -/
def KeepsCase (w : Str) (terms : List Str) : Prop :=
  SomeMatches (stripNots w).2 terms → ∃ alternative ∈ explodeOr [] (stripNots w).2,
    ∃ term ∈ terms, GlobMatches (Str.lower alternative) term

instance (w : Str) (terms : List Str) : Decidable (SomeMatches w terms) :=
  inferInstanceAs (Decidable (∃ alternative ∈ explodeOr [] w, ∃ term ∈ terms, GlobMatches _ _))

instance (w : Str) (terms : List Str) : Decidable (Says w terms) :=
  inferInstanceAs (Decidable (if (stripNots w).1 % 2 = 0 then SomeMatches (stripNots w).2 terms
    else ¬ SomeMatches (stripNots w).2 terms))

instance (w : Str) : Decidable (KeepsWords w) := inferInstanceAs (Decidable (_ ∧ _))

instance (w : Str) (terms : List Str) : Decidable (KeepsCase w terms) :=
  inferInstanceAs (Decidable (SomeMatches (stripNots w).2 terms →
    ∃ alternative ∈ explodeOr [] (stripNots w).2, ∃ term ∈ terms, GlobMatches _ _))

instance (w : Str) : Decidable (Unmagical w) :=
  inferInstanceAs (Decidable (∀ alternative ∈ _, _))

section Lower

theorem not_mem_special {c : Char} (h : ('A' ≤ c ∧ c ≤ 'Z') ∨ ('a' ≤ c ∧ c ≤ 'z')) :
    c ∉ "+.-^$()%".toList ∧ c ≠ '\x01' ∧ c ≠ '\x02' ∧ c ≠ '*' := by
  have hall : ∀ d ∈ "+.-^$()%*\x01\x02".toList,
      ¬ (('A' ≤ d ∧ d ≤ 'Z') ∨ ('a' ≤ d ∧ d ≤ 'z')) :=
      forall_mem_of_all (by decide)
  refine ⟨fun hmem => hall c ?_ h, ?_, ?_, ?_⟩
  · exact List.mem_append_left ['*', '\x01', '\x02'] hmem
  all_goals
    rintro rfl
    exact absurd h (by decide)

theorem lower_escaped (c : Char) : Str.lower (escaped c) = escaped c.toLower := by
  rcases toLower_eq_self_or c with h | ⟨h₁, h₂, h₃, h₄⟩
  · rw [h, escaped]
    split
    · simp [Str.lower, h]
    · split
      · rfl
      · split
        · rfl
        · simp [Str.lower, h]
  · obtain ⟨hmem, hone, htwo, -⟩ := not_mem_special (.inl ⟨h₁, h₂⟩)
    obtain ⟨hmem', hone', htwo', -⟩ := not_mem_special (.inr ⟨h₃, h₄⟩)
    rw [escaped, if_neg hmem, if_neg hone, if_neg htwo, escaped, if_neg hmem', if_neg hone',
      if_neg htwo']
    rfl

theorem toLower_ne_star {c : Char} (hc : c ≠ '*') : c.toLower ≠ '*' :=
  fun h => hc ((toLower_eq_iff (by decide) (by decide)).mp h)

theorem head_lower_ne_star {w : Str} (hw : w.head? ≠ some '*') :
    (Str.lower w).head? ≠ some '*' := by
  cases w with
  | nil => exact hw
  | cons c w => exact fun h => toLower_ne_star (fun hc => hw (by rw [hc]; rfl)) (Option.some.inj h)

/-- A pattern in lower case is the pattern of the text in lower case. -/
theorem lower_wildcards (w : Str) :
    Str.lower (Path.wildcards w) = Path.wildcards (Str.lower w) := by
  have happend : ∀ a b : Str, Str.lower (a ++ b) = Str.lower a ++ Str.lower b :=
    fun a b => List.map_append
  induction w using globPieces.induct with
  | case1 => rfl
  | case2 w ih =>
      show '.' :: '*' :: Str.lower (Path.wildcards w) = '.' :: '*' :: Path.wildcards (Str.lower w)
      rw [ih]
  | case3 w hw ih =>
      have hhead : w.head? ≠ some '*' := by
        intro hstar
        obtain ⟨t, ht⟩ := List.head?_eq_some_iff.mp hstar
        exact hw t ht
      show _ = Path.wildcards ('*' :: Str.lower w)
      rw [wildcards_star hhead, wildcards_star (head_lower_ne_star hhead), happend, ih]
      rfl
  | case4 c w hw hc ih =>
      show _ = Path.wildcards (c.toLower :: Str.lower w)
      rw [wildcards_cons hc, wildcards_cons (toLower_ne_star hc), happend, ih, lower_escaped]

end Lower

section Words

/-- A pattern starts with an ordinary character when the text does. -/
theorem wildcards_eq_cons {w r : Str} {c : Char} (hc : c ∉ ['%', '.', '['])
    (h : Path.wildcards w = c :: r) : ∃ v, w = c :: v ∧ Path.wildcards v = r := by
  cases w with
  | nil => cases h
  | cons d w =>
      by_cases hd : d = '*'
      · subst hd
        by_cases hw : w.head? = some '*'
        · obtain ⟨v, rfl⟩ := List.head?_eq_some_iff.mp hw
          obtain rfl : '.' = c := (List.cons.inj h).1
          exact absurd (by decide) hc
        · rw [wildcards_star hw] at h
          obtain rfl : '[' = c := (List.cons.inj h).1
          exact absurd (by decide) hc
      · rw [wildcards_cons hd, escaped] at h
        split at h
        · obtain rfl : '%' = c := (List.cons.inj h).1
          exact absurd (by decide) hc
        · split at h
          · obtain rfl : '.' = c := (List.cons.inj h).1
            exact absurd (by decide) hc
          · split at h
            · obtain rfl : '[' = c := (List.cons.inj h).1
              exact absurd (by decide) hc
            · obtain ⟨rfl, hrest⟩ := List.cons.inj (show d :: Path.wildcards w = c :: r from h)
              exact ⟨w, rfl, hrest⟩

theorem wildcards_prefix {a : Str} (ha : ∀ c ∈ a, c ∉ ['%', '.', '[']) {w r : Str}
    (h : Path.wildcards w = a ++ r) : ∃ v, w = a ++ v ∧ Path.wildcards v = r := by
  induction a generalizing w with
  | nil => exact ⟨w, rfl, h⟩
  | cons c a ih =>
      obtain ⟨v, rfl, hv⟩ := wildcards_eq_cons (ha c List.mem_cons_self) h
      obtain ⟨u, rfl, hu⟩ := ih (fun d hd => ha d (List.mem_cons_of_mem _ hd)) hv
      exact ⟨u, rfl, hu⟩

theorem explodeOr_cons {c : Char} {s : Str} (h : ∀ t, c :: s ≠ " or ".toList ++ t) (acc : Str) :
    explodeOr acc (c :: s) = explodeOr (acc ++ [c]) s := by
  rw [explodeOr]
  rintro t rfl rfl
  exact h t rfl

theorem explodeOr_append (b acc s : Str) :
    explodeOr (b ++ acc) s = (explodeOr acc s).modifyHead (b ++ ·) := by
  induction acc, s using explodeOr.induct with
  | case1 acc s ih => simp [explodeOr]
  | case2 acc c s h ih =>
      have hne : ∀ t, c :: s ≠ " or ".toList ++ t := fun t ht =>
        h t (List.cons.inj ht).1 (List.cons.inj ht).2
      rw [explodeOr_cons hne, explodeOr_cons hne, List.append_assoc]
      exact ih
  | case3 acc => simp [explodeOr]

theorem explodeOr_ne_nil (acc s : Str) : explodeOr acc s ≠ [] := by
  induction acc, s using explodeOr.induct with
  | case1 acc s ih => simp [explodeOr]
  | case2 acc c s h ih =>
      have hne : ∀ t, c :: s ≠ " or ".toList ++ t := fun t ht =>
        h t (List.cons.inj ht).1 (List.cons.inj ht).2
      rwa [explodeOr_cons hne]
  | case3 acc => simp [explodeOr]

/-- Characters in front that are no blanks belong to the first alternative. -/
theorem explodeOr_of_no_blank {a : Str} (ha : ∀ c ∈ a, c ≠ ' ') (s : Str) :
    explodeOr [] (a ++ s) = (explodeOr [] s).modifyHead (a ++ ·) := by
  rw [← explodeOr_append a [] s, List.append_nil]
  suffices h : ∀ b, explodeOr b (a ++ s) = explodeOr (b ++ a) s from h []
  induction a with
  | nil => simp
  | cons c a ih =>
      intro b
      have hne : ∀ t, c :: (a ++ s) ≠ " or ".toList ++ t := fun t ht =>
        ha c List.mem_cons_self (List.cons.inj ht).1
      rw [List.cons_append, explodeOr_cons hne, ih fun d hd => ha d (List.mem_cons_of_mem _ hd)]
      simp

/-- The first alternative starts like the word, unless it is empty. -/
theorem head_explodeOr {s h : Str} {hs : List Str} (heq : explodeOr [] s = h :: hs) :
    h = [] ∨ h.head? = s.head? := by
  cases s with
  | nil =>
      rw [explodeOr] at heq
      exact .inl (List.cons.inj heq).1.symm
  | cons c s =>
      by_cases hor : ∃ t, c :: s = " or ".toList ++ t
      · obtain ⟨t, ht⟩ := hor
        rw [ht, show " or ".toList ++ t = ' ' :: 'o' :: 'r' :: ' ' :: t from rfl, explodeOr] at heq
        exact .inl (List.cons.inj heq).1.symm
      · rw [explodeOr_cons (fun t ht => hor ⟨t, ht⟩), List.nil_append,
          ← List.append_nil [c], explodeOr_append] at heq
        cases hrest : explodeOr [] s with
        | nil => exact absurd hrest (explodeOr_ne_nil _ _)
        | cons h' hs' =>
            rw [hrest, List.modifyHead_cons] at heq
            rw [← (List.cons.inj heq).1]
            exact .inr rfl

theorem map_modifyHead {f g g' : Str → Str} {l : List Str} (h : ∀ a ∈ l.head?, g (f a) = g' (g a)) :
    (l.modifyHead f).map g = (l.map g).modifyHead g' := by
  cases l with
  | nil => rfl
  | cons a l => simp [h a rfl]

theorem not_blank_of_mem_escaped {c : Char} (hc : c ≠ ' ') : ∀ d ∈ escaped c, d ≠ ' ' := by
  intro d hd
  rw [escaped] at hd
  split at hd
  · rcases List.mem_cons.mp hd with rfl | hd
    · decide
    · rwa [List.mem_singleton.mp hd]
  · split at hd
    · exact fun h => absurd (h ▸ hd) (by decide)
    · split at hd
      · exact fun h => absurd (h ▸ hd) (by decide)
      · rwa [List.mem_singleton.mp hd]

theorem wildcards_or (t : Str) :
    Path.wildcards (" or ".toList ++ t) = " or ".toList ++ Path.wildcards t := by
  show Path.wildcards (' ' :: 'o' :: 'r' :: ' ' :: t) = _
  rw [wildcards_cons (by decide), wildcards_cons (by decide), wildcards_cons (by decide),
    wildcards_cons (by decide)]
  rfl

theorem explodeOr_or (t : Str) : explodeOr [] (" or ".toList ++ t) = [] :: explodeOr [] t := by
  show explodeOr [] (' ' :: 'o' :: 'r' :: ' ' :: t) = _
  rw [explodeOr]

/-- The alternatives of a pattern are the patterns of the alternatives. -/
theorem explodeOr_wildcards (w : Str) :
    explodeOr [] (Path.wildcards w) = (explodeOr [] w).map Path.wildcards := by
  generalize hn : w.length = n
  induction n using Nat.strongRecOn generalizing w with
  | ind n ih =>
      by_cases hor : ∃ t, w = " or ".toList ++ t
      · -- the word goes on with the next alternative
        obtain ⟨t, rfl⟩ := hor
        have hlt : t.length < n := by
          rw [← hn, List.length_append]
          exact Nat.lt_add_of_pos_left (by decide)
        rw [wildcards_or, explodeOr_or, explodeOr_or, ih _ hlt t rfl]
        rfl
      · cases w with
        | nil => rfl
        | cons c w =>
            have hcons : explodeOr [] (c :: w) = (explodeOr [] w).modifyHead ([c] ++ ·) := by
              rw [explodeOr_cons (fun t ht => hor ⟨t, ht⟩), ← explodeOr_append]
              rfl
            have hlt : w.length < n := hn ▸ Nat.lt_succ_self _
            by_cases hstar : c = '*'
            · subst hstar
              by_cases hw : w.head? = some '*'
              · obtain ⟨t, rfl⟩ := List.head?_eq_some_iff.mp hw
                rw [
                  show Path.wildcards ('*' :: '*' :: t) = ".*".toList ++ Path.wildcards t from rfl,
                  explodeOr_of_no_blank (forall_mem_of_all (by decide)),
                  ih _ (Nat.lt_of_succ_lt hlt) t rfl,
                  show '*' :: '*' :: t = "**".toList ++ t from rfl,
                  explodeOr_of_no_blank (forall_mem_of_all (by decide))]
                have hstars : ∀ a, Path.wildcards ("**".toList ++ a) =
                    ".*".toList ++ Path.wildcards a := fun a => rfl
                exact (map_modifyHead fun a _ => hstars a).symm
              · rw [wildcards_star hw, explodeOr_of_no_blank (forall_mem_of_all (by decide)),
                  ih _ hlt w rfl, hcons]
                refine (map_modifyHead fun a ha => wildcards_star ?_).symm
                obtain ⟨as, has⟩ := List.head?_eq_some_iff.mp ha
                rcases head_explodeOr has with rfl | hhead
                · decide
                · rwa [hhead]
            · have hpattern : explodeOr [] (escaped c ++ Path.wildcards w) =
                  (explodeOr [] (Path.wildcards w)).modifyHead (escaped c ++ ·) := by
                by_cases hblank : c = ' '
                · subst hblank
                  have hne : ∀ t, ' ' :: Path.wildcards w ≠ " or ".toList ++ t := by
                    intro t ht
                    obtain ⟨v, hv, -⟩ := wildcards_prefix (a := "or ".toList)
                      (forall_mem_of_all (by decide)) (List.cons.inj ht).2
                    exact hor ⟨v, by rw [hv]; rfl⟩
                  show explodeOr [] (' ' :: Path.wildcards w) = _
                  rw [explodeOr_cons hne, ← explodeOr_append]
                  rfl
                · exact explodeOr_of_no_blank (not_blank_of_mem_escaped hblank) _
              rw [wildcards_cons hstar, hpattern, ih _ hlt w rfl, hcons]
              exact (map_modifyHead fun a _ => wildcards_cons hstar a).symm

end Words

section Match

variable (ord : PairsOrder) (terms : Terms)

theorem matchTerms_wildcards {a : Str} (h : Unmagic false a) (entries : List (TermKey × Str)) :
    ∃ o, matchTerms (Path.wildcards a) entries = .ok o ∧
      (o.isSome ↔ ∃ e ∈ entries, GlobMatches a e.2) := by
  induction entries with
  | nil => exact ⟨none, rfl, by simp⟩
  | cons e entries ih =>
      obtain ⟨k, term⟩ := e
      obtain ⟨m, hm, hiff⟩ := matched_wildcards h term
      rw [matchTerms, hm]
      by_cases hself : m = some term
      · refine ⟨some k, if_pos hself, iff_of_true rfl ?_⟩
        exact ⟨(k, term), List.mem_cons_self, hiff.mp hself⟩
      · obtain ⟨o, ho, hrest⟩ := ih
        refine ⟨o, (if_neg hself).trans ho, hrest.trans ?_⟩
        rw [List.exists_mem_cons_iff, ← hiff]
        exact (or_iff_right hself).symm

/-- Patterns without magic characters are matched without errors. -/
theorem matchPatterns_wildcards (entries : List (TermKey × Str)) {alternatives : List Str}
    (h : ∀ a ∈ alternatives, Unmagic false a) :
    ∃ o, matchPatterns entries (alternatives.map Path.wildcards) = .ok o ∧
      (o.isSome ↔ ∃ a ∈ alternatives, ∃ e ∈ entries, GlobMatches a e.2) := by
  induction alternatives with
  | nil => exact ⟨none, rfl, by simp⟩
  | cons a alternatives ih =>
      obtain ⟨m, hm, hiff⟩ := matchTerms_wildcards (h a List.mem_cons_self) entries
      rw [List.map_cons, matchPatterns, hm, List.exists_mem_cons_iff, ← hiff]
      cases m with
      | some k => exact ⟨some k, rfl, iff_of_true rfl (.inl rfl)⟩
      | none =>
          obtain ⟨o, ho, hrest⟩ := ih fun b hb => h b (List.mem_cons_of_mem _ hb)
          refine ⟨o, ho, hrest.trans ?_⟩
          simp

theorem iskeywordmatch_of_not {keyword : Str} {o : Option Matched}
    (h : iskeywordmatch ord terms keyword = .ok o) :
    ∃ o', iskeywordmatch ord terms ("not ".toList ++ keyword) = .ok o' ∧
      (o'.isSome ↔ ¬ o.isSome) := by
  show ∃ o', iskeywordmatch ord terms ('n' :: 'o' :: 't' :: ' ' :: keyword) = .ok o' ∧ _
  rw [iskeywordmatch, h]
  cases o with
  | none => exact ⟨some .negated, rfl, by simp⟩
  | some m => exact ⟨none, rfl, by simp⟩

theorem iskeywordmatch_of_ne {keyword : Str} (h : ∀ t, keyword ≠ "not ".toList ++ t) :
    iskeywordmatch ord terms keyword =
      (do return (← matchPatterns (ord.enum terms.entries) (explodeOr [] keyword)).map .key) := by
  rw [iskeywordmatch]
  exact fun t ht => h t ht

theorem wildcards_not (t : Str) :
    Path.wildcards ("not ".toList ++ t) = "not ".toList ++ Path.wildcards t := by
  show Path.wildcards ('n' :: 'o' :: 't' :: ' ' :: t) = _
  rw [wildcards_cons (by decide), wildcards_cons (by decide), wildcards_cons (by decide),
    wildcards_cons (by decide)]
  rfl

theorem stripNots_not (t : Str) :
    stripNots ("not ".toList ++ t) = ((stripNots t).1 + 1, (stripNots t).2) := by
  show stripNots ('n' :: 'o' :: 't' :: ' ' :: t) = _
  rw [stripNots]

theorem stripNots_of_ne {w : Str} (h : ∀ t, w ≠ "not ".toList ++ t) : stripNots w = (0, w) := by
  rw [stripNots]
  exact fun t ht => h t ht

/-- The keyword that is made of a word matches when the rest of the word does, with the
negations taken into account. -/
theorem iskeywordmatch_wildcards {w : Str}
    (h : ∀ a ∈ explodeOr [] (stripNots w).2, Unmagic false a) :
    ∃ o, iskeywordmatch ord terms (Path.wildcards w) = .ok o ∧
      (o.isSome ↔
        if (stripNots w).1 % 2 = 0 then
          ∃ a ∈ explodeOr [] (stripNots w).2, ∃ e ∈ terms.entries, GlobMatches a e.2
        else ¬ ∃ a ∈ explodeOr [] (stripNots w).2, ∃ e ∈ terms.entries, GlobMatches a e.2) := by
  generalize hn : w.length = n
  induction n using Nat.strongRecOn generalizing w with
  | ind n ih =>
      by_cases hnot : ∃ t, w = "not ".toList ++ t
      · obtain ⟨t, rfl⟩ := hnot
        have hlt : t.length < n := by
          rw [← hn, List.length_append]
          exact Nat.lt_add_of_pos_left (by decide)
        rw [stripNots_not] at h ⊢
        obtain ⟨o, ho, hiff⟩ := ih _ hlt h rfl
        obtain ⟨o', ho', hnegated⟩ := iskeywordmatch_of_not ord terms ho
        refine ⟨o', by rw [wildcards_not, ho'], hnegated.trans ?_⟩
        rw [hiff]
        rcases Nat.mod_two_eq_zero_or_one (stripNots t).1 with hmod | hmod
        · rw [if_pos hmod, if_neg (by simp only; omega)]
        · rw [if_neg (by omega), if_pos (by simp only; omega), not_not]
      · have hne : ∀ t, w ≠ "not ".toList ++ t := fun t ht => hnot ⟨t, ht⟩
        have hpattern : ∀ t, Path.wildcards w ≠ "not ".toList ++ t := by
          intro t ht
          obtain ⟨v, hv, -⟩ := wildcards_prefix (forall_mem_of_all (by decide)) ht
          exact hne v hv
        rw [stripNots_of_ne hne] at h ⊢
        obtain ⟨o, ho, hiff⟩ := matchPatterns_wildcards (ord.enum terms.entries) h
        rw [iskeywordmatch_of_ne ord terms hpattern, explodeOr_wildcards, ho]
        refine ⟨o.map .key, rfl, ?_⟩
        rw [Option.isSome_map, hiff, if_pos (Nat.zero_mod 2)]
        simp only [PairsOrder.mem_enum]

end Match

def ReadsAs (w : Str) (ord : PairsOrder) (terms : Terms) : Prop :=
  ∃ o, iskeywordmatch ord terms (Str.lower (Path.wildcards w)) = .ok o ∧
    (o.isSome ↔ Says w (terms.entries.map Prod.snd))

section Result

variable {w : Str} {ord : PairsOrder} {terms : Terms}

/-- For a word that keeps its negations and alternatives in lower case and has no magic
characters, what its keyword matches. -/
theorem iskeywordmatch_of_unmagical (hwords : KeepsWords w) (hmagic : Unmagical w) :
    ∃ o, iskeywordmatch ord terms (Str.lower (Path.wildcards w)) = .ok o ∧
      (o.isSome ↔ ((stripNots w).1 % 2 = 0 ↔ ∃ alternative ∈ explodeOr [] (stripNots w).2,
        ∃ term ∈ terms.entries.map Prod.snd, GlobMatches (Str.lower alternative) term)) := by
  obtain ⟨hnots, halternatives⟩ := hwords
  have h : ∀ a ∈ explodeOr [] (stripNots (Str.lower w)).2, Unmagic false a := by
    rw [hnots, halternatives]
    intro a ha
    obtain ⟨b, hb, rfl⟩ := List.mem_map.mp ha
    exact hmagic b hb
  obtain ⟨o, ho, hiff⟩ := iskeywordmatch_wildcards ord terms h
  refine ⟨o, by rw [lower_wildcards, ho], hiff.trans ?_⟩
  have hsome : (∃ a ∈ explodeOr [] (Str.lower (stripNots w).2), ∃ e ∈ terms.entries,
      GlobMatches a e.2) ↔ ∃ alternative ∈ explodeOr [] (stripNots w).2,
        ∃ term ∈ terms.entries.map Prod.snd, GlobMatches (Str.lower alternative) term := by
    rw [halternatives]
    simp only [List.mem_map, exists_exists_and_eq_and]
  rw [hnots, hsome]
  split
  · rename_i heven
    exact (iff_true_left heven).symm
  · rename_i hodd
    exact (iff_false_left hodd).symm

/-- The keyword that is made of a word matches the terms as the word says, when the word keeps
its negations and alternatives in lower case and has no magic characters, and the terms keep
their case. For such a word it is so for no other terms. -/
theorem readsAs_of_unmagical (w : Str) (ord : PairsOrder) (terms : Terms) :
    (KeepsWords w ∧ Unmagical w ∧ KeepsCase w (terms.entries.map Prod.snd) →
        ReadsAs w ord terms) ∧
      (KeepsWords w → Unmagical w → ReadsAs w ord terms →
        KeepsCase w (terms.entries.map Prod.snd)) := by
  have hreads : KeepsWords w → Unmagical w →
      (ReadsAs w ord terms ↔ KeepsCase w (terms.entries.map Prod.snd)) := by
    intro hwords hmagic
    obtain ⟨o, ho, hiff⟩ := @iskeywordmatch_of_unmagical w ord terms hwords hmagic
    have hasIs : (∃ alternative ∈ explodeOr [] (stripNots w).2,
        ∃ term ∈ terms.entries.map Prod.snd, GlobMatches (Str.lower alternative) term) →
          SomeMatches (stripNots w).2 (terms.entries.map Prod.snd) :=
      fun ⟨a, ha, term, hterm, hmatch⟩ => ⟨a, ha, term, hterm, globMatches_lower hmatch⟩
    have hsaid : Says w (terms.entries.map Prod.snd) ↔ ((stripNots w).1 % 2 = 0 ↔
        SomeMatches (stripNots w).2 (terms.entries.map Prod.snd)) := by
      rw [Says]
      split
      · rename_i heven
        exact (iff_true_left heven).symm
      · rename_i hodd
        exact (iff_false_left hodd).symm
    constructor
    · rintro ⟨o', ho', hiff'⟩ hsome
      obtain rfl := Except.ok.inj (ho.symm.trans ho')
      have heq := hiff.symm.trans (hiff'.trans hsaid)
      by_cases heven : (stripNots w).1 % 2 = 0
      · exact (heq.mpr (iff_of_true heven hsome)).mp heven
      · by_contra hnone
        exact heven ((heq.mp (iff_of_false heven hnone)).mpr hsome)
    · intro hcase
      refine ⟨o, ho, hiff.trans ?_⟩
      rw [hsaid]
      exact iff_congr Iff.rfl ⟨hasIs, hcase⟩
  exact ⟨fun ⟨hwords, hmagic, hcase⟩ => (hreads hwords hmagic).mpr hcase,
    fun hwords hmagic => (hreads hwords hmagic).mp⟩

end Result

theorem readsAs_not_debug :
    ReadsAs "not Debug* or **.c".toList .insertion (Terms.ofWords ["debugdll".toList]) :=
  (readsAs_of_unmagical _ _ _).1 ⟨by decide, by decide, by decide⟩

/-- A question mark is not escaped, and makes the character in front optional. -/
theorem not_readsAs_question :
    ¬ ReadsAs "debug?".toList .insertion (Terms.ofWords ["debu".toList]) := by
  rintro ⟨o, ho, hiff⟩
  have hcode : iskeywordmatch .insertion (Terms.ofWords ["debu".toList])
      (Str.lower (Path.wildcards "debug?".toList)) = .ok (some (.key (.word 1))) := rfl
  obtain rfl := Except.ok.inj (hcode.symm.trans ho)
  exact absurd (hiff.mp rfl) (by decide)

end Puremake
