import Puremake.Lua.Malformed
import Puremake.Bake.Terms

/-!
# The required term

The terms of a file carry the name of the file under `required`, and a block is applied to the
file only when one of its keywords has matched that term. A keyword answers with the key of
the first term that it matches, in the order of `pairs`. When the alternative of the keyword
that decides also matches another term, the order decides whether the required term has been
seen.
-/

namespace Puremake

/-- Two searches fail with the same error, or both find nothing, or both find something. -/
inductive FoundAlike {ε α : Type} : Except ε (Option α) → Except ε (Option α) → Prop
  | raised (e : ε) : FoundAlike (.error e) (.error e)
  | missed : FoundAlike (.ok none) (.ok none)
  | found (a b : α) : FoundAlike (.ok (some a)) (.ok (some b))

section Terms

variable {pattern : Str} {l l' : List (TermKey × Str)} {r r' : Except BakeError (Option TermKey)}

/-- A pattern comes to a result on some terms, in whatever order they are tried. -/
def ComesTo (pattern : Str) (l : List (TermKey × Str)) :
    Except BakeError (Option TermKey) → Prop
  | .error e => ∃ kt ∈ l, ∃ raised, Lua.matched pattern kt.2 = .error raised ∧ e = .pattern raised
  | .ok none => ∀ kt ∈ l, ∃ m, Lua.matched pattern kt.2 = .ok m ∧ m ≠ some kt.2
  | .ok (some k) => ∃ term, (k, term) ∈ l ∧ Lua.matched pattern term = .ok (some term)

theorem comesTo_matchTerms (pattern : Str) (l : List (TermKey × Str)) :
    ComesTo pattern l (matchTerms pattern l) := by
  induction l with
  | nil => exact fun kt hkt => absurd hkt List.not_mem_nil
  | cons kt l ih =>
      obtain ⟨k, term⟩ := kt
      rw [matchTerms]
      cases hm : Lua.matched pattern term with
      | error e => exact ⟨(k, term), List.mem_cons_self, e, hm, rfl⟩
      | ok m =>
          dsimp only
          split
          · rename_i heq
            exact ⟨term, List.mem_cons_self, heq ▸ hm⟩
          · rename_i hne
            cases hrest : matchTerms pattern l with
            | error e =>
                rw [hrest] at ih
                obtain ⟨kt, hkt, he⟩ := ih
                exact ⟨kt, List.mem_cons_of_mem _ hkt, he⟩
            | ok r =>
                rw [hrest] at ih
                cases r with
                | none =>
                    intro kt hkt
                    rcases List.mem_cons.mp hkt with rfl | hkt
                    · exact ⟨m, hm, hne⟩
                    · exact ih kt hkt
                | some k' =>
                    obtain ⟨term', hmem, hm'⟩ := ih
                    exact ⟨term', List.mem_cons_of_mem _ hmem, hm'⟩

theorem comesTo_of_perm (hperm : l.Perm l') (h : ComesTo pattern l r) : ComesTo pattern l' r := by
  cases r with
  | error e =>
      obtain ⟨kt, hkt, he⟩ := h
      exact ⟨kt, hperm.mem_iff.mp hkt, he⟩
  | ok r =>
      cases r with
      | none => exact fun kt hkt => h kt (hperm.mem_iff.mpr hkt)
      | some k =>
          obtain ⟨term, hmem, hm⟩ := h
          exact ⟨term, hperm.mem_iff.mp hmem, hm⟩

theorem not_comesTo_none_of_error {e : BakeError} (h : ComesTo pattern l (.error e)) :
    ¬ ComesTo pattern l (.ok none) := by
  intro h'
  obtain ⟨kt, hkt, raised, hraised, -⟩ := h
  obtain ⟨m, hm, -⟩ := h' kt hkt
  cases hraised.symm.trans hm

theorem not_comesTo_some_of_error {e : BakeError} {k : TermKey}
    (h : ComesTo pattern l (.error e)) : ¬ ComesTo pattern l (.ok (some k)) := by
  rintro ⟨term, -, hm⟩
  obtain ⟨kt, -, raised, hraised, -⟩ := h
  exact Lua.not_matched_of_raises hraised term term hm

theorem not_comesTo_some_of_none {k : TermKey} (h : ComesTo pattern l (.ok none)) :
    ¬ ComesTo pattern l (.ok (some k)) := by
  rintro ⟨term, hmem, hm⟩
  obtain ⟨m, hm', hne⟩ := h (k, term) hmem
  exact hne (Except.ok.inj (hm'.symm.trans hm))

/-- The order of the terms can change which key is found, but not whether one is found, nor
the error. -/
theorem foundAlike_of_comesTo (h : ComesTo pattern l r) (h' : ComesTo pattern l r') :
    FoundAlike r r' := by
  match r, r' with
  | .error e, .error e' =>
      obtain ⟨kt, -, raised, hraised, rfl⟩ := h
      obtain ⟨kt', -, raised', hraised', rfl⟩ := h'
      rw [Lua.error_eq_of_raises hraised hraised']
      exact .raised _
  | .error e, .ok none => exact absurd h' (not_comesTo_none_of_error h)
  | .error e, .ok (some k) => exact absurd h' (not_comesTo_some_of_error h)
  | .ok none, .error e => exact absurd h (not_comesTo_none_of_error h')
  | .ok none, .ok none => exact .missed
  | .ok none, .ok (some k) => exact absurd h' (not_comesTo_some_of_none h)
  | .ok (some k), .error e => exact absurd h (not_comesTo_some_of_error h')
  | .ok (some k), .ok none => exact absurd h (not_comesTo_some_of_none h')
  | .ok (some k), .ok (some k') => exact .found k k'

theorem matchTerms_perm (hperm : l.Perm l') (pattern : Str) :
    FoundAlike (matchTerms pattern l) (matchTerms pattern l') :=
  foundAlike_of_comesTo (comesTo_of_perm hperm (comesTo_matchTerms pattern l))
    (comesTo_matchTerms pattern l')

/-- When the terms that are tried last are found, none of the others is matched. -/
theorem not_mem_of_matchTerms_append {k : TermKey} (hk : ∀ kt ∈ l, kt.1 ≠ k)
    (h : matchTerms pattern (l ++ l') = .ok (some k)) {kt : TermKey × Str} (hkt : kt ∈ l) :
    Lua.matched pattern kt.2 ≠ .ok (some kt.2) := by
  induction l with
  | nil => exact absurd hkt List.not_mem_nil
  | cons kt' l ih =>
      obtain ⟨k', term⟩ := kt'
      rw [List.cons_append, matchTerms] at h
      cases hm : Lua.matched pattern term with
      | error e =>
          rw [hm] at h
          cases h
      | ok m =>
          rw [hm] at h
          dsimp only at h
          split at h
          · exact absurd (Option.some.inj (Except.ok.inj h)) (hk _ List.mem_cons_self)
          · rename_i hne
            rcases List.mem_cons.mp hkt with rfl | hkt
            · exact fun heq => hne (Except.ok.inj (hm.symm.trans heq))
            · exact ih (fun kt hkt => hk kt (List.mem_cons_of_mem _ hkt)) h hkt

end Terms

section Keywords

def matchesWhole (pattern term : Str) : Bool :=
  decide (Lua.matched pattern term = .ok (some term))

theorem matchesWhole_iff {pattern term : Str} :
    matchesWhole pattern term ↔ Lua.matched pattern term = .ok (some term) :=
  decide_eq_true_iff

def deciding (terms : Terms) (keyword : Str) : Option Str :=
  (explodeOr [] keyword).find? fun pattern =>
    terms.entries.any fun kt => matchesWhole pattern kt.2

def isnegated : Str → Bool
  | 'n' :: 'o' :: 't' :: ' ' :: _ => true
  | _ => false

variable {terms : Terms} {ord ord' : PairsOrder} {keyword : Str} {l l' : List (TermKey × Str)}

theorem iskeywordmatch_of_not_negated (hneg : isnegated keyword = false) :
    iskeywordmatch ord terms keyword =
      (matchPatterns (ord.enum terms.entries) (explodeOr [] keyword)).map
        (Option.map Matched.key) := by
  rw [iskeywordmatch]
  · cases matchPatterns (ord.enum terms.entries) (explodeOr [] keyword) with
    | error e => rfl
    | ok k => rfl
  · rintro rest rfl
    cases hneg

theorem iskeywordmatch_not (rest : Str) :
    iskeywordmatch ord terms ('n' :: 'o' :: 't' :: ' ' :: rest) =
      (iskeywordmatch ord terms rest).map fun m => if m.isSome then none else some .negated := by
  rw [iskeywordmatch]
  cases iskeywordmatch ord terms rest with
  | error e => rfl
  | ok m =>
      cases m with
      | none => rfl
      | some m => rfl

theorem matchPatterns_perm (hperm : l.Perm l') (patterns : List Str) :
    FoundAlike (matchPatterns l patterns) (matchPatterns l' patterns) := by
  induction patterns with
  | nil => exact .missed
  | cons pattern patterns ih =>
      have halike := matchTerms_perm hperm pattern
      rw [matchPatterns, matchPatterns]
      generalize matchTerms pattern l = r, matchTerms pattern l' = r' at halike ⊢
      cases halike with
      | raised e => exact .raised e
      | missed => exact ih
      | found k k' => exact .found k k'

/-- Whether a keyword matches does not depend on the order of the terms. -/
theorem foundAlike_iskeywordmatch (ord ord' : PairsOrder) (terms : Terms) (keyword : Str) :
    FoundAlike (iskeywordmatch ord terms keyword) (iskeywordmatch ord' terms keyword) := by
  induction keyword using iskeywordmatch.induct with
  | case1 rest ih =>
      rw [iskeywordmatch_not, iskeywordmatch_not]
      generalize iskeywordmatch ord terms rest = r, iskeywordmatch ord' terms rest = r' at ih ⊢
      cases ih with
      | raised e => exact .raised e
      | missed => exact .found _ _
      | found m m' => exact .missed
  | case2 keyword hneg =>
      have hpos : isnegated keyword = false := by
        unfold isnegated
        split
        · exact absurd rfl (hneg _)
        · rfl
      have hperm := (ord.perm terms.entries).trans (ord'.perm terms.entries).symm
      have halike := matchPatterns_perm hperm (explodeOr [] keyword)
      rw [iskeywordmatch_of_not_negated hpos, iskeywordmatch_of_not_negated hpos]
      generalize matchPatterns (ord.enum terms.entries) _ = r,
        matchPatterns (ord'.enum terms.entries) _ = r' at halike ⊢
      cases halike with
      | raised e => exact .raised e
      | missed => exact .missed
      | found k k' => exact .found _ _

theorem find_of_matchPatterns {patterns : List Str} {k : TermKey}
    (h : matchPatterns l patterns = .ok (some k)) :
    ∃ pattern, patterns.find? (fun p => l.any fun kt => matchesWhole p kt.2) = some pattern ∧
      matchTerms pattern l = .ok (some k) := by
  induction patterns with
  | nil => cases h
  | cons pattern patterns ih =>
      have hcomes := comesTo_matchTerms pattern l
      rw [matchPatterns] at h
      cases hk : matchTerms pattern l with
      | error e =>
          rw [hk] at h
          cases h
      | ok r =>
          rw [hk] at h hcomes
          cases r with
          | some k' =>
              obtain ⟨term, hmem, hm⟩ := hcomes
              refine ⟨pattern, List.find?_cons_of_pos ?_, hk.trans h⟩
              exact List.any_eq_true.mpr ⟨(k', term), hmem, matchesWhole_iff.mpr hm⟩
          | none =>
              obtain ⟨pattern', hfind, hk'⟩ := ih h
              refine ⟨pattern', (List.find?_cons_of_neg ?_).trans hfind, hk'⟩
              rw [List.any_eq_true]
              rintro ⟨kt, hkt, hmatches⟩
              obtain ⟨m, hm, hne⟩ := hcomes kt hkt
              exact hne (Except.ok.inj (hm.symm.trans (matchesWhole_iff.mp hmatches)))

/-- A keyword that answers with a key is not negated, and its deciding alternative finds the
key. -/
theorem deciding_of_iskeywordmatch {k : TermKey}
    (h : iskeywordmatch ord terms keyword = .ok (some (.key k))) :
    isnegated keyword = false ∧ ∃ pattern, deciding terms keyword = some pattern ∧
      matchTerms pattern (ord.enum terms.entries) = .ok (some k) := by
  cases hneg : isnegated keyword with
  | true =>
      unfold isnegated at hneg
      split at hneg
      · rename_i rest
        rw [iskeywordmatch_not] at h
        cases hrest : iskeywordmatch ord terms rest with
        | error e =>
            rw [hrest] at h
            cases h
        | ok m =>
            rw [hrest] at h
            cases m with
            | none => cases h
            | some m => cases h
      · cases hneg
  | false =>
      rw [iskeywordmatch_of_not_negated hneg] at h
      refine ⟨rfl, ?_⟩
      have hany : (fun p => (ord.enum terms.entries).any fun kt => matchesWhole p kt.2) =
          fun p => terms.entries.any fun kt => matchesWhole p kt.2 := by
        funext p
        exact (ord.perm terms.entries).any_eq
      rw [deciding, ← hany]
      cases hk : matchPatterns (ord.enum terms.entries) (explodeOr [] keyword) with
      | error e =>
          rw [hk] at h
          cases h
      | ok r =>
          rw [hk] at h
          cases r with
          | none => cases h
          | some k' =>
              obtain rfl : k' = k := by cases h; rfl
              exact find_of_matchPatterns hk

end Keywords

section Required

variable {terms : Terms} {ord ord' : PairsOrder} {keyword f : Str} {keywords : List Str}

def AllMatch (ord : PairsOrder) (terms : Terms) (keywords : List Str) : Prop :=
  ∀ keyword ∈ keywords, ∃ m, iskeywordmatch ord terms keyword = .ok (some m)

def NamesFile (f keyword : Str) : Prop :=
  isnegated keyword = false ∧ ∃ pattern ∈ explodeOr [] keyword, matchesWhole pattern f

/-- The alternative of the keyword that decides matches the required term only. -/
def NamesOnlyFile (terms : Terms) (keyword : Str) : Prop :=
  isnegated keyword = false ∧ ∃ pattern, deciding terms keyword = some pattern ∧
    ∀ kt ∈ terms.entries, matchesWhole pattern kt.2 → kt.1 = .required

/-- The answer does not depend on the order of the terms, and a block with a keyword that
matches the required term is applied when all its keywords match. -/
def Independent (keywords : List Str) (terms : Terms) : Prop :=
  (∀ ord ord', iskeywordsmatch ord keywords terms = iskeywordsmatch ord' keywords terms) ∧
    ∀ f ord, terms.required = some f → AllMatch ord terms keywords →
      (∃ keyword ∈ keywords, NamesFile f keyword) → iskeywordsmatch ord keywords terms = .ok true

theorem allMatch_of_allMatch (h : AllMatch ord terms keywords) (ord' : PairsOrder) :
    AllMatch ord' terms keywords := by
  intro keyword hkeyword
  obtain ⟨m, hm⟩ := h keyword hkeyword
  have halike := foundAlike_iskeywordmatch ord ord' terms keyword
  rw [hm] at halike
  generalize iskeywordmatch ord' terms keyword = r at halike ⊢
  cases halike with
  | found m m' => exact ⟨m', rfl⟩

/-- When a keyword does not match, the loop ends there, with the same answer in every order. -/
theorem keywordsLoop_of_not_allMatch (h : ¬ AllMatch ord terms keywords) (b b' : Bool) :
    keywordsLoop ord terms b keywords = keywordsLoop ord' terms b' keywords := by
  induction keywords generalizing b b' with
  | nil => exact absurd (fun keyword hkeyword => absurd hkeyword List.not_mem_nil) h
  | cons keyword keywords ih =>
      have halike := foundAlike_iskeywordmatch ord ord' terms keyword
      have hrest : (∃ m, iskeywordmatch ord terms keyword = .ok (some m)) →
          ¬ AllMatch ord terms keywords := fun hm hall => h (List.forall_mem_cons.mpr ⟨hm, hall⟩)
      rw [keywordsLoop, keywordsLoop]
      generalize iskeywordmatch ord terms keyword = r,
        iskeywordmatch ord' terms keyword = r' at halike hrest ⊢
      cases halike with
      | raised e => rfl
      | missed => rfl
      | found m m' => exact ih (hrest ⟨m, rfl⟩) _ _

/-- When all keywords match, the answer tells whether the required term has been found. -/
theorem keywordsLoop_of_allMatch (h : AllMatch ord terms keywords) (b : Bool) :
    ∃ answer, keywordsLoop ord terms b keywords = .ok answer ∧
      (answer = true ↔ terms.required = none ∨ b = true ∨
        ∃ keyword ∈ keywords, iskeywordmatch ord terms keyword = .ok (some (.key .required))) := by
  induction keywords generalizing b with
  | nil =>
      refine ⟨_, rfl, ?_⟩
      simp
  | cons keyword keywords ih =>
      obtain ⟨m, hm⟩ := h keyword List.mem_cons_self
      obtain ⟨answer, hanswer, hiff⟩ := ih
        (fun keyword hkeyword => h keyword (List.mem_cons_of_mem _ hkeyword))
        (b || m = .key .required)
      refine ⟨answer, ?_, hiff.trans ?_⟩
      · rw [keywordsLoop, hm]
        exact hanswer
      · rw [List.exists_mem_cons_iff, hm, Bool.or_eq_true, decide_eq_true_iff]
        have hkey : (Except.ok (some m) : Except BakeError _) = .ok (some (.key .required)) ↔
            m = .key .required := by
          rw [Except.ok.injEq, Option.some.injEq]
        rw [hkey, or_assoc]

theorem mem_entries_required {term : Str} (h : (.required, term) ∈ terms.entries) :
    terms.required = some term := by
  simpa [Terms.entries] using h

/-- A keyword that answers with the required term has an alternative that matches it. -/
theorem namesFile_of_iskeywordmatch (hf : terms.required = some f)
    (h : iskeywordmatch ord terms keyword = .ok (some (.key .required))) :
    NamesFile f keyword := by
  obtain ⟨hneg, pattern, hdeciding, hfound⟩ := deciding_of_iskeywordmatch h
  have hcomes := comesTo_matchTerms pattern (ord.enum terms.entries)
  rw [hfound] at hcomes
  obtain ⟨term, hmem, hm⟩ := hcomes
  have hterm := mem_entries_required (ord.mem_enum.mp hmem)
  rw [hf] at hterm
  obtain rfl := Option.some.inj hterm
  exact ⟨hneg, pattern, List.mem_of_find?_eq_some hdeciding, matchesWhole_iff.mpr hm⟩

/-- A keyword whose deciding alternative matches the required term only answers with it in
every order. -/
theorem iskeywordmatch_of_namesOnlyFile (h : NamesOnlyFile terms keyword) {m : Matched}
    (hm : iskeywordmatch ord terms keyword = .ok (some m)) : m = .key .required := by
  obtain ⟨hneg, pattern, hdeciding, honly⟩ := h
  have hkey : ∃ k, m = .key k := by
    rw [iskeywordmatch_of_not_negated hneg] at hm
    cases hk : matchPatterns (ord.enum terms.entries) (explodeOr [] keyword) with
    | error e =>
        rw [hk] at hm
        cases hm
    | ok r =>
        rw [hk] at hm
        cases r with
        | none => cases hm
        | some k => exact ⟨k, (Option.some.inj (Except.ok.inj hm)).symm⟩
  obtain ⟨k, rfl⟩ := hkey
  obtain ⟨-, pattern', hdeciding', hfound⟩ := deciding_of_iskeywordmatch hm
  obtain rfl := Option.some.inj (hdeciding.symm.trans hdeciding')
  have hcomes := comesTo_matchTerms pattern (ord.enum terms.entries)
  rw [hfound] at hcomes
  obtain ⟨term, hmem, hmatched⟩ := hcomes
  have hk : k = .required := honly (k, term) (ord.mem_enum.mp hmem) (matchesWhole_iff.mpr hmatched)
  rw [hk]

/-- When the required term is tried last, only a keyword whose deciding alternative matches
nothing else answers with it. -/
theorem namesOnlyFile_of_iskeywordmatch
    (h : iskeywordmatch .insertion terms keyword = .ok (some (.key .required))) :
    NamesOnlyFile terms keyword := by
  obtain ⟨hneg, pattern, hdeciding, hfound⟩ := deciding_of_iskeywordmatch h
  refine ⟨hneg, pattern, hdeciding, fun kt hkt hmatches => ?_⟩
  by_contra hne
  have hentries : PairsOrder.insertion.enum terms.entries =
      { terms with required := none : Terms }.entries ++
        terms.required.toList.map (TermKey.required, ·) := by
    simp [PairsOrder.insertion, Terms.entries]
  have hkt' := PairsOrder.insertion.mem_enum.mpr hkt
  rw [hentries] at hfound hkt'
  refine not_mem_of_matchTerms_append ?_ hfound ?_ (matchesWhole_iff.mp hmatches)
  · intro kt' hkt' hkey
    have hnone := @mem_entries_required { terms with required := none } kt'.2 (hkey ▸ hkt')
    cases hnone
  · rcases List.mem_append.mp hkt' with hkt' | hkt'
    · exact hkt'
    · obtain ⟨term, -, rfl⟩ := List.mem_map.mp hkt'
      exact absurd rfl hne

/-- The answer depends on the order exactly when a keyword that is not negated has an
alternative that matches the required term, but whichever alternative decides also matches
another term. -/
theorem independent_iff (keywords : List Str) (terms : Terms) :
    Independent keywords terms ↔ ∀ f, terms.required = some f →
      (∀ ord, AllMatch ord terms keywords) → (∃ keyword ∈ keywords, NamesFile f keyword) →
      ∃ keyword ∈ keywords, NamesOnlyFile terms keyword := by
  constructor
  · rintro ⟨-, happlied⟩ f hf hall hnames
    have hloop := happlied f .insertion hf (hall .insertion) hnames
    obtain ⟨answer, hanswer, hiff⟩ := keywordsLoop_of_allMatch (hall .insertion) false
    rw [iskeywordsmatch, hanswer] at hloop
    rcases hiff.mp (Except.ok.inj hloop) with hnone | hfalse | ⟨keyword, hkeyword, hkey⟩
    · cases hf.symm.trans hnone
    · cases hfalse
    · exact ⟨keyword, hkeyword, namesOnlyFile_of_iskeywordmatch hkey⟩
  · intro hcond
    -- When all keywords match, the answer is the same in every order.
    have hanswer : ∀ ord, AllMatch ord terms keywords → ∃ answer,
        iskeywordsmatch ord keywords terms = .ok answer ∧ (answer = true ↔
          terms.required = none ∨ ∃ f, terms.required = some f ∧
            ∃ keyword ∈ keywords, NamesFile f keyword) := by
      intro ord hall
      obtain ⟨answer, hanswer, hiff⟩ := keywordsLoop_of_allMatch hall false
      refine ⟨answer, hanswer, hiff.trans ?_⟩
      cases hf : terms.required with
      | none => simp
      | some f =>
          constructor
          · rintro (hnone | hfalse | ⟨keyword, hkeyword, hkey⟩)
            · cases hnone
            · cases hfalse
            · exact .inr ⟨f, rfl, keyword, hkeyword, namesFile_of_iskeywordmatch hf hkey⟩
          · rintro (hnone | ⟨f', hf', hnames⟩)
            · cases hnone
            · obtain rfl := Option.some.inj hf'
              obtain ⟨keyword, hkeyword, honly⟩ :=
                hcond f hf (fun ord' => allMatch_of_allMatch hall ord') hnames
              obtain ⟨m, hm⟩ := hall keyword hkeyword
              obtain rfl := iskeywordmatch_of_namesOnlyFile honly hm
              exact .inr (.inr ⟨keyword, hkeyword, hm⟩)
    constructor
    · intro ord ord'
      by_cases hall : AllMatch ord terms keywords
      · obtain ⟨answer, h, hiff⟩ := hanswer ord hall
        obtain ⟨answer', h', hiff'⟩ := hanswer ord' (allMatch_of_allMatch hall ord')
        rw [h, h', Bool.eq_iff_iff.mpr (hiff.trans hiff'.symm)]
      · exact keywordsLoop_of_not_allMatch hall false false
    · intro f ord hf hall hnames
      obtain ⟨answer, h, hiff⟩ := hanswer ord hall
      rw [h, hiff.mpr (.inr ⟨f, hf, hnames⟩)]

/-- The block `configuration "debug*"` for the file `debug.c` in the configuration `Debug`. -/
theorem not_independent_debug : ¬ Independent (keywordsOf ["Debug*".toList])
    { Terms.ofWords [] with config := some "debug".toList, required := some "debug.c".toList } := by
  rintro ⟨hsame, -⟩
  have hlast : iskeywordsmatch .insertion (keywordsOf ["Debug*".toList])
      { Terms.ofWords [] with
        config := some "debug".toList, required := some "debug.c".toList } = .ok false := by
    rfl
  have hfirst : iskeywordsmatch ⟨List.reverse, List.reverse_perm⟩ (keywordsOf ["Debug*".toList])
      { Terms.ofWords [] with
        config := some "debug".toList, required := some "debug.c".toList } = .ok true := by
    rfl
  cases hlast.symm.trans ((hsame _ _).trans hfirst)

end Required

end Puremake
