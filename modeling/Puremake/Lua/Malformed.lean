import Puremake.Lua.Pattern

/-!
# Malformed patterns

The matcher notices that a pattern is malformed only when it arrives at the place. A match
goes through the whole pattern, so a malformed pattern matches nothing, and raises the same
error wherever it raises one. `path.wildcards` writes a character behind every `%`, so that
its patterns can only miss a bracket.
-/

namespace Puremake

namespace Lua

def behind : Str → Str
  | '?' :: q => q
  | '*' :: q => q
  | q => q

def malformed : ℕ → Str → Option PatternError
  | 0, _ => none
  | fuel + 1, p =>
      match classEnd p with
      | .error e => some e
      | .ok none => none
      | .ok (some (_, q)) => malformed fuel (behind q)

/-- A search along a list, in which every item either decides or passes on, is decided by one
of the items. -/
theorem exists_of_foldr {α β : Type} {f : β → α} {g : β → α → α} {l : List β} {pass out : α}
    (hstep : ∀ t next, g t next = f t ∨ g t next = next) (hout : out ≠ pass)
    (h : l.foldr g pass = out) : ∃ t ∈ l, f t = out := by
  induction l with
  | nil => exact absurd h.symm hout
  | cons t l ih =>
      rw [List.foldr_cons] at h
      rcases hstep t (l.foldr g pass) with ht | ht
      · exact ⟨t, List.mem_cons_self, ht.symm.trans h⟩
      · obtain ⟨u, hu, hfu⟩ := ih (ht.symm.trans h)
        exact ⟨u, List.mem_cons_of_mem t hu, hfu⟩

section Malformed

variable {fuel : ℕ} {p s : Str} {out : Except PatternError (Option Str)}

/-- The matcher is at a place that is malformed, or at the end, or it goes on behind the
class. -/
theorem matchHere_step (hout : out ≠ .ok none) (h : matchHere (fuel + 1) p s = out) :
    (∃ e, classEnd p = .error e ∧ out = .error e) ∨
      (classEnd p = .ok none ∧ out = .ok (some s)) ∨
      ∃ cl q t, classEnd p = .ok (some (cl, q)) ∧ matchHere fuel (behind q) t = out := by
  rw [matchHere] at h
  cases hclass : classEnd p with
  | error e =>
      rw [hclass] at h
      exact .inl ⟨e, rfl, h.symm⟩
  | ok cl =>
      rw [hclass] at h
      cases cl with
      | none => exact .inr (.inl ⟨rfl, h.symm⟩)
      | some cl =>
          obtain ⟨cl, q⟩ := cl
          refine .inr (.inr ?_)
          have hnext : ∃ t, matchHere fuel (behind q) t = out := by
            simp only [bind, Except.bind] at h
            split at h
            · rename_i heq
              cases heq
            · rename_i cl' q' heq
              obtain ⟨rfl, rfl⟩ := Prod.mk.inj (Option.some.inj heq)
              split at h
              · exact ⟨[], h⟩
              · rename_i c t
                split at h
                · cases ht : matchHere fuel q' t with
                  | error e =>
                      rw [ht] at h
                      exact ⟨t, ht.trans h⟩
                  | ok r =>
                      rw [ht] at h
                      cases r with
                      | some r => exact ⟨t, ht.trans h⟩
                      | none => exact ⟨c :: t, h⟩
                · exact ⟨c :: t, h⟩
            · rename_i cl' q' heq
              obtain ⟨rfl, rfl⟩ := Prod.mk.inj (Option.some.inj heq)
              refine (exists_of_foldr (f := matchHere fuel q') (fun t next => ?_) hout h).imp
                fun t ht => ht.2
              cases matchHere fuel q' t with
              | error e => exact .inl rfl
              | ok r =>
                  cases r with
                  | some r => exact .inl rfl
                  | none => exact .inr rfl
            · rename_i cl' q' hquestion hstar heq
              obtain ⟨rfl, rfl⟩ := Prod.mk.inj (Option.some.inj heq)
              have hbehind : behind q = q := by
                rw [behind]
                · exact fun u hu => hquestion u (by rw [hu])
                · exact fun u hu => hstar u (by rw [hu])
              rw [hbehind]
              split at h
              · exact absurd h.symm hout
              · rename_i c t
                split at h
                · exact ⟨t, h⟩
                · exact absurd h.symm hout
          obtain ⟨t, ht⟩ := hnext
          exact ⟨cl, q, t, rfl, ht⟩

/-- The result of a match says which error stands first in the pattern. -/
def Tells {β : Type} (m : Option PatternError) : Except PatternError (Option β) → Prop
  | .error e => m = some e
  | .ok (some _) => m = none
  | .ok none => True

/-- A malformed pattern raises the error that stands first in it, and matches nothing. -/
theorem tells_matchHere (fuel : ℕ) (p s : Str) : Tells (malformed fuel p) (matchHere fuel p s) := by
  induction fuel generalizing p s with
  | zero => exact rfl
  | succ fuel ih =>
      by_cases hout : matchHere (fuel + 1) p s = .ok none
      · rw [hout]
        trivial
      · rcases matchHere_step hout rfl with ⟨e, hclass, he⟩ | ⟨hclass, he⟩ | ⟨cl, q, t, hclass, ht⟩
        · rw [he, malformed, hclass]
          rfl
        · rw [he, malformed, hclass]
          rfl
        · rw [← ht, malformed, hclass]
          exact ih (behind q) t

theorem tells_find (p s : Str) : Tells (malformed p.length p) (find p s) := by
  induction s with
  | nil =>
      have htells := tells_matchHere p.length p []
      rw [find]
      cases h : matchHere p.length p [] with
      | error e =>
          rw [h] at htells
          exact htells
      | ok r =>
          rw [h] at htells
          cases r with
          | none => trivial
          | some r => exact htells
  | cons c s ih =>
      have htells := tells_matchHere p.length p (c :: s)
      rw [find]
      cases h : matchHere p.length p (c :: s) with
      | error e =>
          rw [h] at htells
          exact htells
      | ok r =>
          rw [h] at htells
          cases r with
          | some r => exact htells
          | none =>
              cases hs : find p s with
              | error e =>
                  rw [hs] at ih
                  exact ih
              | ok m =>
                  rw [hs] at ih
                  cases m with
                  | none => trivial
                  | some m => exact ih

theorem tells_matched (p s : Str) : Tells (malformed p.length p) (matched p s) := by
  have htells := tells_find p s
  rw [matched]
  cases h : find p s with
  | error e =>
      rw [h] at htells
      exact htells
  | ok m =>
      rw [h] at htells
      cases m with
      | none => trivial
      | some m => exact htells

theorem not_matched_of_raises {p s : Str} {e : PatternError} (h : matched p s = .error e)
    (t m : Str) : matched p t ≠ .ok (some m) := by
  intro hm
  have hraises := tells_matched p s
  have hmatches := tells_matched p t
  rw [h] at hraises
  rw [hm] at hmatches
  exact Option.some_ne_none e (hraises.symm.trans hmatches)

theorem error_eq_of_raises {p s t : Str} {e e' : PatternError} (h : matched p s = .error e)
    (h' : matched p t = .error e') : e' = e := by
  have hraises := tells_matched p s
  have hraises' := tells_matched p t
  rw [h] at hraises
  rw [h'] at hraises'
  exact Option.some.inj (hraises'.symm.trans hraises)

end Malformed

section Paired

/-- Behind every `%` there is a character. -/
def paired : Str → Bool
  | ['%'] => false
  | '%' :: _ :: p => paired p
  | _ :: p => paired p
  | [] => true

theorem paired_cons {c : Char} (hc : c ≠ '%') (p : Str) : paired (c :: p) = paired p := by
  rw [paired]
  · exact fun h _ => hc h
  · exact fun d q h _ => hc h

theorem paired_behind {p : Str} (h : paired p) : paired (behind p) := by
  unfold behind
  split
  · rwa [paired_cons (by decide)] at h
  · rwa [paired_cons (by decide)] at h
  · exact h

theorem paired_percent (c : Char) (p : Str) : paired ('%' :: c :: p) = paired p := rfl

theorem paired_setText {p t q : Str} (h : paired p) (hset : setText p = some (t, q)) :
    paired q := by
  induction p using setText.induct generalizing t q with
  | case1 => cases hset
  | case2 c q' =>
      obtain ⟨-, rfl⟩ := Prod.mk.inj (Option.some.inj hset)
      rwa [paired_percent, paired_cons (by decide)] at h
  | case3 c p hne ih =>
      rw [setText] at hset
      · obtain ⟨tq, htq, heq⟩ := Option.map_eq_some_iff.mp hset
        obtain ⟨-, rfl⟩ := Prod.mk.inj heq
        exact ih h htq
      · exact hne
  | case4 c q' hne =>
      have hc : c ≠ '%' := fun hc => hne ']' q' hc rfl
      rw [setText] at hset
      · obtain ⟨-, rfl⟩ := Prod.mk.inj (Option.some.inj hset)
        rwa [paired_cons hc, paired_cons (by decide)] at h
      · exact fun d r hd => absurd hd hc
  | case5 c p hbracket hne ih =>
      rw [setText] at hset
      · obtain ⟨tq, htq, heq⟩ := Option.map_eq_some_iff.mp hset
        obtain ⟨-, rfl⟩ := Prod.mk.inj heq
        by_cases hc : c = '%'
        · rw [hc] at h
          cases p with
          | nil => cases htq
          | cons d r => exact absurd rfl (hne d r hc)
        · rw [paired_cons hc] at h
          exact ih h htq
      · exact hne
      · exact hbracket

theorem paired_classEnd {p : Str} (h : paired p) : classEnd p ≠ .error .endsWithPercent ∧
    ∀ cl q, classEnd p = .ok (some (cl, q)) → paired q := by
  unfold classEnd
  split
  · simp
  · cases h
  · refine ⟨by simp, fun cl q hq => ?_⟩
    obtain ⟨-, rfl⟩ := Prod.mk.inj (Option.some.inj (Except.ok.inj hq))
    exact h
  · rename_i p
    rw [paired_cons (by decide), paired_cons (by decide)] at h
    cases ht : setText p with
    | none => simp
    | some tq =>
        refine ⟨by simp, fun cl q hq => ?_⟩
        obtain ⟨-, rfl⟩ := Prod.mk.inj (Option.some.inj (Except.ok.inj hq))
        exact paired_setText h ht
  · rename_i p _
    rw [paired_cons (by decide)] at h
    cases ht : setText p with
    | none => simp
    | some tq =>
        refine ⟨by simp, fun cl q hq => ?_⟩
        obtain ⟨-, rfl⟩ := Prod.mk.inj (Option.some.inj (Except.ok.inj hq))
        exact paired_setText h ht
  · refine ⟨by simp, fun cl q hq => ?_⟩
    obtain ⟨-, rfl⟩ := Prod.mk.inj (Option.some.inj (Except.ok.inj hq))
    rwa [paired_cons (by decide)] at h
  · rename_i c p hpercent hend _ _ _
    refine ⟨by simp, fun cl q hq => ?_⟩
    obtain ⟨-, rfl⟩ := Prod.mk.inj (Option.some.inj (Except.ok.inj hq))
    rwa [paired_cons] at h
    rintro rfl
    cases p with
    | nil => exact hpercent rfl rfl
    | cons d p => exact hend d p rfl rfl

theorem malformed_of_paired {p : Str} (h : paired p) (fuel : ℕ) :
    malformed fuel p ≠ some .endsWithPercent := by
  induction fuel generalizing p with
  | zero => simp [malformed]
  | succ fuel ih =>
      obtain ⟨herror, hrest⟩ := paired_classEnd h
      rw [malformed]
      cases hclass : classEnd p with
      | error e =>
          rw [hclass] at herror
          exact fun he => herror (congrArg Except.error (Option.some.inj he))
      | ok cl =>
          cases cl with
          | none => simp
          | some cl => exact ih (paired_behind (hrest cl.1 cl.2 hclass))

theorem paired_wildcards (w : Str) : paired (Path.wildcards w) := by
  induction w using Path.wildcards.induct with
  | case1 => rfl
  | case2 s ih =>
      rw [Path.wildcards, paired_cons (by decide), paired_cons (by decide)]
      exact ih
  | case3 s hne ih =>
      rw [Path.wildcards]
      · exact ih
      · exact hne
  | case4 c s hne hstar hspecial ih =>
      rw [Path.wildcards, if_pos hspecial]
      · exact ih
      · exact hne
      · exact hstar
  | case5 s _ _ hspecial ih => exact ih
  | case6 s _ _ hspecial _ ih => exact ih
  | case7 c s hne hstar hspecial h₁ h₂ ih =>
      rw [Path.wildcards, if_neg hspecial, if_neg h₁, if_neg h₂, paired_cons]
      · exact ih
      · exact fun hc => hspecial (hc ▸ by decide)
      · exact hne
      · exact hstar

/-- The only error of a pattern of `path.wildcards` is a bracket that is not closed. -/
theorem error_wildcards {w s : Str} {e : PatternError}
    (h : matched (Path.wildcards w) s = .error e) : e = .missingBracket := by
  have hraises := tells_matched (Path.wildcards w) s
  rw [h] at hraises
  cases e with
  | missingBracket => rfl
  | endsWithPercent => exact absurd hraises (malformed_of_paired (paired_wildcards w) _)

end Paired

end Lua

end Puremake
