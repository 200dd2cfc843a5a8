import Puremake.Bake.Keywords
import Puremake.Fold.Ends
import Puremake.Lua.Malformed

/-!
# Words that are no patterns

A word of a configuration block may hold a bracket that is not closed, and then the pattern
that is made of it is malformed. This is the only error that the keywords of a block raise, and
a word without an opening bracket does not raise it.
-/

namespace Puremake

open FoldRun

section Wildcards

/-- What is behind the first class of a pattern is a pattern again. -/
theorem behind_wildcards (w : Str) :
    ∃ v, Lua.behind (Path.wildcards w) = Path.wildcards v ∧ ∀ c ∈ v, c ∈ w := by
  unfold Lua.behind
  split
  · rename_i q hq
    obtain ⟨v, rfl, hv⟩ := wildcards_eq_cons (by decide) hq
    exact ⟨v, hv.symm, fun c hc => List.mem_cons_of_mem _ hc⟩
  · rename_i q hq
    obtain ⟨v, rfl, hv⟩ := wildcards_eq_cons (by decide) hq
    exact ⟨v, hv.symm, fun c hc => List.mem_cons_of_mem _ hc⟩
  · exact ⟨w, rfl, fun c hc => hc⟩

/-- What stands for a character is one class, and it may be repeated. -/
theorem classEnd_piece {c : Char} (hbracket : c ≠ '[') (p : Str) :
    ∃ cl q, Lua.classEnd (escaped c ++ p) = .ok (some (cl, q)) ∧ (q = p ∨ q = '*' :: p) := by
  by_cases hone : c = '\x01'
  · subst hone
    exact ⟨.any, '*' :: p, rfl, .inr rfl⟩
  · by_cases htwo : c = '\x02'
    · subst htwo
      exact ⟨.set true ['/'], '*' :: p, rfl, .inr rfl⟩
    · exact ⟨.lit c, p, classEnd_escaped (by simp [hbracket, hone, htwo]) p, .inl rfl⟩

/-- A pattern of `path.wildcards` is malformed only when the text has an opening bracket. -/
theorem malformed_wildcards (fuel : ℕ) {w : Str} (h : '[' ∉ w) :
    Lua.malformed fuel (Path.wildcards w) = none := by
  induction fuel generalizing w with
  | zero => rfl
  | succ fuel ih =>
      have hpiece : ∀ (cl : Lua.CharClass) (q v : Str), '[' ∉ v →
          Lua.classEnd (Path.wildcards w) = .ok (some (cl, q)) →
          (q = Path.wildcards v ∨ q = '*' :: Path.wildcards v) →
          Lua.malformed (fuel + 1) (Path.wildcards w) = none := by
        intro cl q v hv hclass hq
        rw [Lua.malformed, hclass]
        rcases hq with rfl | rfl
        · obtain ⟨u, hu, hsub⟩ := behind_wildcards v
          show Lua.malformed fuel (Lua.behind (Path.wildcards v)) = none
          rw [hu]
          exact ih fun hmem => hv (hsub _ hmem)
        · exact ih hv
      cases w with
      | nil => rfl
      | cons c w =>
          have hw : '[' ∉ w := fun hmem => h (List.mem_cons_of_mem c hmem)
          by_cases hstar : c = '*'
          · subst hstar
            by_cases hhead : w.head? = some '*'
            · obtain ⟨v, rfl⟩ := List.head?_eq_some_iff.mp hhead
              refine hpiece .any ('*' :: Path.wildcards v) v ?_ rfl (.inr rfl)
              exact fun hmem => hw (List.mem_cons_of_mem _ hmem)
            · refine hpiece (.set true ['/']) ('*' :: Path.wildcards w) w hw ?_ (.inr rfl)
              rw [wildcards_star hhead]
              rfl
          · have hbracket : c ≠ '[' := fun hc => h (hc ▸ List.mem_cons_self)
            obtain ⟨cl, q, hclass, hq⟩ := classEnd_piece hbracket (Path.wildcards w)
            rw [← wildcards_cons hstar] at hclass
            exact hpiece cl q w hw hclass hq

end Wildcards

section Keywords

variable {ord : PairsOrder} {terms : Terms}

def Unclosed (w : Str) (e : BakeError) : Prop := e = .pattern .missingBracket ∧ '[' ∈ w

theorem Unclosed.of_subset {v w : Str} (hsub : ∀ c ∈ v, c ∈ w) {e : BakeError}
    (h : Unclosed v e) : Unclosed w e := ⟨h.1, hsub _ h.2⟩

theorem ends_matchTerms {w : Str} (entries : List (TermKey × Str)) :
    Ends (Unclosed w) (fun _ => True) (matchTerms (Path.wildcards w) entries) := by
  induction entries with
  | nil => exact ends_ok trivial
  | cons e entries ih =>
      obtain ⟨k, term⟩ := e
      rw [matchTerms]
      cases hmatched : Lua.matched (Path.wildcards w) term with
      | error err =>
          refine ⟨congrArg _ (Lua.error_wildcards hmatched), ?_⟩
          by_contra hbracket
          have htells := Lua.tells_matched (Path.wildcards w) term
          rw [hmatched, malformed_wildcards _ hbracket] at htells
          cases htells
      | ok m =>
          simp only
          split
          · exact ends_ok trivial
          · exact ih

theorem ends_matchPatterns {w : Str} (entries : List (TermKey × Str)) {alternatives : List Str}
    (h : ∀ a ∈ alternatives, ∀ c ∈ a, c ∈ w) :
    Ends (Unclosed w) (fun _ => True)
      (matchPatterns entries (alternatives.map Path.wildcards)) := by
  induction alternatives with
  | nil => exact ends_ok trivial
  | cons a alternatives ih =>
      rw [List.map_cons, matchPatterns]
      have hterms : Ends (Unclosed w) (fun _ => True) (matchTerms (Path.wildcards a) entries) :=
        (ends_matchTerms entries).weaken fun e he => he.of_subset (h a List.mem_cons_self)
      refine hterms.bind fun m _ => ?_
      cases m with
      | some k => exact ends_pure trivial
      | none => exact ih fun b hb => h b (List.mem_cons_of_mem _ hb)

theorem mem_of_mem_explodeOr {acc s : Str} {a : Str} (ha : a ∈ explodeOr acc s) {c : Char}
    (hc : c ∈ a) : c ∈ acc ∨ c ∈ s := by
  induction acc, s using explodeOr.induct with
  | case1 acc s ih =>
      rw [explodeOr] at ha
      rcases List.mem_cons.mp ha with rfl | ha
      · exact .inl hc
      · have hs := (ih ha).resolve_left List.not_mem_nil
        exact .inr (by simp [hs])
  | case2 acc d s h ih =>
      have hne : ∀ t, d :: s ≠ " or ".toList ++ t := fun t ht =>
        h t (List.cons.inj ht).1 (List.cons.inj ht).2
      rw [explodeOr_cons hne] at ha
      rcases ih ha with hacc | hs
      · rcases List.mem_append.mp hacc with hacc | hd
        · exact .inl hacc
        · exact .inr (List.mem_singleton.mp hd ▸ List.mem_cons_self)
      · exact .inr (List.mem_cons_of_mem _ hs)
  | case3 acc =>
      rw [explodeOr, List.mem_singleton] at ha
      exact .inl (ha ▸ hc)

/-- The keyword that is made of a word raises an error only when a bracket is not closed. -/
theorem ends_iskeywordmatch (w : Str) :
    Ends (Unclosed w) (fun _ => True) (iskeywordmatch ord terms (Path.wildcards w)) := by
  generalize hn : w.length = n
  induction n using Nat.strongRecOn generalizing w with
  | ind n ih =>
      by_cases hnot : ∃ t, w = "not ".toList ++ t
      · obtain ⟨t, rfl⟩ := hnot
        have hlt : t.length < n := by
          rw [← hn, List.length_append]
          exact Nat.lt_add_of_pos_left (by decide)
        rw [wildcards_not]
        show Ends _ _ (iskeywordmatch ord terms ('n' :: 'o' :: 't' :: ' ' :: Path.wildcards t))
        rw [iskeywordmatch]
        have hrest := (ih _ hlt t rfl).weaken fun e he =>
          he.of_subset (w := "not ".toList ++ t) fun c hc => List.mem_append_right _ hc
        refine hrest.bind fun m _ => ?_
        cases m <;> exact ends_pure trivial
      · have hpattern : ∀ t, Path.wildcards w ≠ "not ".toList ++ t := by
          intro t ht
          obtain ⟨v, hv, -⟩ := wildcards_prefix (forall_mem_of_all (by decide)) ht
          exact hnot ⟨v, hv⟩
        rw [iskeywordmatch_of_ne ord terms hpattern, explodeOr_wildcards]
        refine Ends.bind (ends_matchPatterns _ fun a ha c hc => ?_) fun m _ =>
          ends_pure trivial
        exact (mem_of_mem_explodeOr ha hc).resolve_left List.not_mem_nil

/-- One of some words has a bracket that is not closed. -/
def SomeUnclosed (words : List Str) (e : BakeError) : Prop := ∃ w ∈ words, Unclosed w e

/-- The keywords of a block raise an error only when a bracket is not closed in one of its
words. -/
theorem ends_iskeywordsmatch (words : List Str) :
    Ends (SomeUnclosed words) (fun _ => True) (iskeywordsmatch ord (keywordsOf words) terms) := by
  rw [iskeywordsmatch]
  generalize false = hasrequired
  induction words generalizing hasrequired with
  | nil => exact ends_ok trivial
  | cons w words ih =>
      have hlower : '[' ∈ Str.lower w → '[' ∈ w := by
        intro hmem
        obtain ⟨c, hc, heq⟩ := List.mem_map.mp hmem
        rwa [← (toLower_eq_iff (by decide) (by decide)).mp heq]
      show Ends _ _ (keywordsLoop ord terms hasrequired
        (Str.lower (Path.wildcards w) :: keywordsOf words))
      rw [keywordsLoop, lower_wildcards]
      refine Ends.bind ((ends_iskeywordmatch (Str.lower w)).weaken fun e he =>
        ⟨w, List.mem_cons_self, he.1, hlower he.2⟩) fun m _ => ?_
      cases m with
      | none => exact ends_pure trivial
      | some m =>
          exact (ih _).weaken fun e ⟨v, hv, he⟩ => ⟨v, List.mem_cons_of_mem w hv, he⟩

end Keywords

end Puremake
