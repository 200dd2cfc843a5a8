import Puremake.Greedy.Basic
import Puremake.Lua.Pattern

/-!
# What the pattern of a wildcard matches

`path.wildcards` turns a text with `*` and `**` into a Lua pattern. Most of the characters
that are special in a pattern are escaped, and then the pattern matches a text as a whole
exactly when the text is an instance of the wildcards. A bracket is not escaped, nor is a
question mark, which is harmless in front of a pattern and behind a star only.
-/

namespace Puremake

/-- The wildcards in a text: `**` stands for any characters, `*` for any but slashes, and
every other character for itself. -/
def globPieces : Str → List (Greedy.Piece Char)
  | [] => []
  | '*' :: '*' :: s => .many (fun _ => true) :: globPieces s
  | '*' :: s => .many (fun c => c ≠ '/') :: globPieces s
  | c :: s => .one (fun d => d = c) :: globPieces s

/-- A text is an instance of the wildcards in another one. -/
def GlobMatches (w s : Str) : Prop := Greedy.Matches (globPieces w) s

instance (w s : Str) : Decidable (GlobMatches w s) :=
  decidable_of_iff (Greedy.match? (globPieces w) s = some []) Greedy.match?_eq_some_nil_iff

/-- A text without characters that `path.wildcards` should have escaped: there is no
bracket, no NUL, no placeholder of `path.wildcards` itself, and a question mark stands in
front or behind a star only. The flag says whether there is a character in front. -/
def Unmagic : Bool → Str → Prop
  | _, [] => True
  | behind, c :: s =>
    if c = '*' then Unmagic false s
    else (c = '?' → behind = false) ∧ c ∉ ['[', '\x00', '\x01', '\x02'] ∧ Unmagic true s

instance decidableUnmagic : (behind : Bool) → (w : Str) → Decidable (Unmagic behind w)
  | _, [] => inferInstanceAs (Decidable True)
  | behind, c :: s =>
    have := decidableUnmagic false s
    have := decidableUnmagic true s
    inferInstanceAs (Decidable (if c = '*' then Unmagic false s
      else (c = '?' → behind = false) ∧ c ∉ ['[', '\x00', '\x01', '\x02'] ∧ Unmagic true s))

theorem globPieces_star {s : Str} (hs : s.head? ≠ some '*') :
    globPieces ('*' :: s) = .many (fun c => c ≠ '/') :: globPieces s := by
  rw [globPieces]
  rintro t rfl
  exact hs rfl

theorem globPieces_cons {c : Char} (hc : c ≠ '*') (s : Str) :
    globPieces (c :: s) = .one (fun d => d = c) :: globPieces s := by
  rw [globPieces]
  · exact fun t h => absurd h hc
  · exact hc

section Instance

theorem globMatches_cons {c : Char} (hc : c ≠ '*') {w s : Str} :
    GlobMatches (c :: w) s ↔ ∃ t, s = c :: t ∧ GlobMatches w t := by
  rw [GlobMatches, globPieces_cons hc, Greedy.Matches, Greedy.reaches_one_iff]
  constructor
  · rintro ⟨d, t, rfl, hd, h⟩
    obtain rfl : d = c := of_decide_eq_true hd
    exact ⟨t, rfl, h⟩
  · rintro ⟨t, rfl, h⟩
    exact ⟨c, t, rfl, decide_eq_true rfl, h⟩

/-- The text in front of the first star stands in front of every instance. -/
theorem globMatches_iff_literal {w s : Str} : GlobMatches w s ↔
    ∃ t, s = w.takeWhile (· ≠ '*') ++ t ∧ GlobMatches (w.dropWhile (· ≠ '*')) t := by
  induction w generalizing s with
  | nil =>
      constructor
      · intro h
        exact ⟨s, rfl, h⟩
      · rintro ⟨t, rfl, h⟩
        exact h
  | cons c w ih =>
      by_cases hc : c = '*'
      · subst hc
        rw [List.takeWhile_cons_of_neg (by simp), List.dropWhile_cons_of_neg (by simp)]
        simp
      · rw [List.takeWhile_cons_of_pos (by simpa using hc),
          List.dropWhile_cons_of_pos (by simpa using hc), globMatches_cons hc]
        constructor
        · rintro ⟨t, rfl, h⟩
          obtain ⟨r, rfl, hr⟩ := ih.mp h
          exact ⟨r, rfl, hr⟩
        · rintro ⟨r, rfl, hr⟩
          exact ⟨_, rfl, ih.mpr ⟨r, rfl, hr⟩⟩

theorem mem_of_globMatches {w s : Str} (h : GlobMatches w s) {c : Char} (hc : c ∈ w)
    (hstar : c ≠ '*') : c ∈ s := by
  induction w using globPieces.induct generalizing s with
  | case1 => cases hc
  | case2 w ih =>
      rw [GlobMatches, globPieces, Greedy.Matches, Greedy.reaches_many_iff] at h
      obtain ⟨a, t, rfl, -, h⟩ := h
      exact List.mem_append_right _ (ih h (by simpa [hstar] using hc))
  | case3 w hw ih =>
      rw [GlobMatches, globPieces] at h
      · obtain ⟨a, t, rfl, -, h⟩ := Greedy.reaches_many_iff.mp h
        exact List.mem_append_right _ (ih h (by simpa [hstar] using hc))
      · exact hw
  | case4 d w hw hd ih =>
      obtain ⟨t, rfl, ht⟩ := (globMatches_cons hd).mp h
      rcases List.mem_cons.mp hc with rfl | hc
      · exact List.mem_cons_self
      · exact List.mem_cons_of_mem _ (ih ht hc)

/-- Capital letters are not matched by the letters of a text in lower case. -/
theorem globMatches_lower {w s : Str} (h : GlobMatches (Str.lower w) s) :
    GlobMatches (Str.lower w) (Str.lower s) := by
  refine Greedy.Reaches.map h (fun q hq c hc => ?_)
  generalize hv : Str.lower w = v at hq
  have hlow : ∀ d ∈ v, d.toLower = d := by
    rw [← hv]
    intro d hd
    obtain ⟨e, -, rfl⟩ := List.mem_map.mp hd
    exact toLower_toLower e
  clear h hv
  induction v using globPieces.induct with
  | case1 => cases hq
  | case2 v ih =>
      rw [globPieces] at hq
      rcases List.mem_cons.mp hq with rfl | hq
      · rfl
      · exact ih hq fun d hd => hlow d (List.mem_cons_of_mem _ (List.mem_cons_of_mem _ hd))
  | case3 v hv ih =>
      rw [globPieces] at hq
      · rcases List.mem_cons.mp hq with rfl | hq
        · have hslash : c ≠ '/' := of_decide_eq_true hc
          exact decide_eq_true fun heq =>
            hslash ((toLower_eq_iff (by decide) (by decide)).mp heq)
        · exact ih hq fun d hd => hlow d (List.mem_cons_of_mem _ hd)
      · exact hv
  | case4 d v hv hd ih =>
      rw [globPieces_cons hd] at hq
      rcases List.mem_cons.mp hq with rfl | hq
      · obtain rfl : c = d := of_decide_eq_true hc
        exact decide_eq_true (hlow c List.mem_cons_self)
      · exact ih hq fun e he => hlow e (List.mem_cons_of_mem _ he)

end Instance

section Pattern

def escaped (c : Char) : Str :=
  if c ∈ "+.-^$()%".toList then ['%', c]
  else if c = '\x01' then ".*".toList
  else if c = '\x02' then "[^/]*".toList
  else [c]

theorem wildcards_cons {c : Char} (hc : c ≠ '*') (s : Str) :
    Path.wildcards (c :: s) = escaped c ++ Path.wildcards s := by
  rw [Path.wildcards, escaped]
  · split
    · rfl
    · split
      · rfl
      · split
        · rfl
        · rfl
  · exact fun s h => absurd h hc
  · exact hc

theorem escaped_of_not_mem {c : Char} (hc : c ∉ ['[', '\x01', '\x02']) :
    escaped c = if c ∈ "+.-^$()%".toList then ['%', c] else [c] := by
  have h₁ : c ≠ '\x01' := fun h => hc (by simp [h])
  have h₂ : c ≠ '\x02' := fun h => hc (by simp [h])
  rw [escaped, if_neg h₁, if_neg h₂]

theorem not_mem_of_unmagic {c : Char} (hc : c ∉ ['[', '\x00', '\x01', '\x02']) :
    c ∉ ['[', '\x01', '\x02'] := fun hmem =>
  hc (List.mem_cons.mpr ((List.mem_cons.mp hmem).imp_right (List.mem_cons_of_mem _)))

theorem classEnd_escaped {c : Char} (hc : c ∉ ['[', '\x01', '\x02']) (p : Str) :
    Lua.classEnd (escaped c ++ p) = .ok (some (.lit c, p)) := by
  rw [escaped_of_not_mem hc]
  split
  · rfl
  · rename_i hmagic
    have hpercent : c ≠ '%' := fun h => hmagic (by rw [h]; decide)
    have hdot : c ≠ '.' := fun h => hmagic (by rw [h]; decide)
    have hbracket : c ≠ '[' := fun h => hc (by simp [h])
    show Lua.classEnd (c :: p) = _
    rw [Lua.classEnd]
    all_goals simp_all

theorem expansions_eq (cl : Lua.CharClass) (s : Str) :
    Lua.expansions cl s = Greedy.runs (fun c => cl.has c) s := by
  induction s with
  | nil => rfl
  | cons c s ih => rw [Lua.expansions, Greedy.runs, ih]

theorem wildcards_star {s : Str} (hs : s.head? ≠ some '*') :
    Path.wildcards ('*' :: s) = "[^/]*".toList ++ Path.wildcards s := by
  rw [Path.wildcards]
  rintro t rfl
  exact hs rfl

/-- Behind a character, a pattern does not go on with a quantifier. -/
theorem head_wildcards {w : Str} (h : Unmagic true w) :
    (Path.wildcards w).head? ≠ some '?' ∧ (Path.wildcards w).head? ≠ some '*' := by
  cases w with
  | nil => decide
  | cons c s =>
      rw [Unmagic] at h
      split at h
      · subst c
        by_cases hs : s.head? = some '*'
        · obtain ⟨t, rfl⟩ := List.head?_eq_some_iff.mp hs
          rw [Path.wildcards]
          exact ⟨by simp, by simp⟩
        · rw [wildcards_star hs]
          exact ⟨by simp, by simp⟩
      · rename_i hstar
        rw [wildcards_cons hstar, escaped_of_not_mem (not_mem_of_unmagic h.2.1)]
        split
        · exact ⟨by simp, by simp⟩
        · refine ⟨?_, by simpa using hstar⟩
          have hquestion : c ≠ '?' := fun hc => absurd (h.1 hc) (by decide)
          simpa using hquestion

theorem foldr_expansions {f : Str → Except Lua.PatternError (Option Str)} {g : Str → Option Str}
    (hf : ∀ t, f t = .ok (g t)) (ts : List Str) :
    ts.foldr (fun t next => do
      match ← f t with
      | some r => .ok (some r)
      | none => next) (.ok none) = .ok (ts.findSome? g) := by
  induction ts with
  | nil => rfl
  | cons t ts ih =>
      rw [List.foldr_cons, ih, hf t, List.findSome?_cons]
      cases g t <;> rfl

theorem matchHere_many {p q : Str} {cl : Lua.CharClass}
    (hp : Lua.classEnd p = .ok (some (cl, '*' :: q))) {fuel : ℕ} {g : Str → Option Str}
    (hg : ∀ t, Lua.matchHere fuel q t = .ok (g t)) (s : Str) :
    Lua.matchHere (fuel + 1) p s = .ok ((Greedy.runs (fun c => cl.has c) s).findSome? g) := by
  rw [← expansions_eq, ← foldr_expansions hg, Lua.matchHere, hp]
  rfl

theorem matchHere_one {p q : Str} {cl : Lua.CharClass}
    (hp : Lua.classEnd p = .ok (some (cl, q))) (hq : q.head? ≠ some '?' ∧ q.head? ≠ some '*')
    {fuel : ℕ} {g : Str → Option Str} (hg : ∀ t, Lua.matchHere fuel q t = .ok (g t)) (s : Str) :
    Lua.matchHere (fuel + 1) p s = .ok (match s with
      | [] => none
      | c :: t => if cl.has c then g t else none) := by
  rw [Lua.matchHere, hp]
  simp only [bind, Except.bind]
  split
  · rename_i heq
    cases heq
  · rename_i heq
    cases heq
    exact absurd rfl hq.1
  · rename_i heq
    cases heq
    exact absurd rfl hq.2
  · rename_i heq
    cases heq
    cases s with
    | nil => rfl
    | cons c t =>
        simp only
        rw [hg t]
        split <;> rfl

theorem matchHere_wildcards {behind : Bool} {w : Str} (h : Unmagic behind w) {fuel : ℕ}
    (hfuel : (globPieces w).length ≤ fuel) (s : Str) :
    Lua.matchHere fuel (Path.wildcards w) s = .ok (Greedy.match? (globPieces w) s) := by
  induction w using globPieces.induct generalizing behind fuel s with
  | case1 =>
      cases fuel with
      | zero => rfl
      | succ fuel => rfl
  | case2 w ih =>
      cases fuel with
      | zero => simp [globPieces] at hfuel
      | succ fuel =>
          rw [Unmagic, if_pos rfl, Unmagic, if_pos rfl] at h
          have hlen : (globPieces w).length ≤ fuel := by simpa [globPieces] using hfuel
          exact matchHere_many (show Lua.classEnd _ = .ok (some (.any, _)) from rfl) (ih h hlen) s
  | case3 w hw ih =>
      cases fuel with
      | zero => simp [globPieces] at hfuel
      | succ fuel =>
          rw [Unmagic, if_pos rfl] at h
          have hhead : w.head? ≠ some '*' := by
            intro hstar
            obtain ⟨t, ht⟩ := List.head?_eq_some_iff.mp hstar
            exact hw t ht
          rw [globPieces_star hhead] at hfuel ⊢
          have hclass : (fun c => (Lua.CharClass.set true ['/']).has c) =
              fun c => decide (c ≠ '/') := by
            funext c
            simp [Lua.CharClass.has, Lua.setHas]
          rw [wildcards_star hhead, Greedy.match?, ← hclass]
          exact matchHere_many rfl (ih h (Nat.le_of_succ_le_succ hfuel)) s
  | case4 c w hw hc ih =>
      cases fuel with
      | zero => simp [globPieces] at hfuel
      | succ fuel =>
          rw [Unmagic, if_neg hc] at h
          rw [globPieces_cons hc] at hfuel ⊢
          have hp := classEnd_escaped (not_mem_of_unmagic h.2.1) (Path.wildcards w)
          rw [wildcards_cons hc, matchHere_one hp (head_wildcards h.2.2)
            (ih h.2.2 (Nat.le_of_succ_le_succ hfuel))]
          cases s with
          | nil => rfl
          | cons d t => rfl

theorem length_globPieces_le (w : Str) :
    (globPieces w).length ≤ (Path.wildcards w).length := by
  induction w using globPieces.induct with
  | case1 => exact Nat.le_refl _
  | case2 w ih =>
      rw [globPieces, Path.wildcards]
      simp only [List.length_cons]
      omega
  | case3 w hw ih =>
      rw [globPieces, Path.wildcards]
      · simp only [List.length_cons, List.length_append]
        have hlen : "[^/]*".toList.length = 5 := rfl
        omega
      · exact hw
      · exact hw
  | case4 c w hw hc ih =>
      rw [globPieces_cons hc, Path.wildcards]
      · split
        · simp only [List.length_cons]
          omega
        · split
          · simp only [List.length_cons]
            omega
          · split
            · simp only [List.length_cons, List.length_append]
              have hlen : "[^/]*".toList.length = 5 := rfl
              omega
            · simp only [List.length_cons]
              omega
      · exact fun t h => absurd h hc
      · exact hc

section Find

variable {p : Str} {g : Str → Option Str}

theorem find_eq_ok (hp : ∀ t, Lua.matchHere p.length p t = .ok (g t)) (s : Str) :
    ∃ o, Lua.find p s = .ok o ∧ ∀ i m, o = some (i, m) → m.length ≤ s.length := by
  induction s with
  | nil =>
      rw [Lua.find, hp]
      cases g [] with
      | none => exact ⟨none, rfl, fun i m h => nomatch h⟩
      | some r =>
          refine ⟨some (1, []), rfl, fun i m h => ?_⟩
          cases h
          exact Nat.le_refl _
  | cons c s ih =>
      obtain ⟨o, ho, hlen⟩ := ih
      rw [Lua.find, hp]
      cases g (c :: s) with
      | some r =>
          refine ⟨_, rfl, fun i m h => ?_⟩
          cases h
          exact List.length_take_le' _ _
      | none =>
          rw [ho]
          cases o with
          | none => exact ⟨none, rfl, fun i m h => nomatch h⟩
          | some im =>
              obtain ⟨i, m⟩ := im
              refine ⟨_, rfl, fun i' m' h => ?_⟩
              cases h
              exact Nat.le_succ_of_le (hlen i m rfl)

/-- A text is found as a whole when the match at its beginning leaves nothing. -/
theorem matched_eq_self_iff (hp : ∀ t, Lua.matchHere p.length p t = .ok (g t))
    (hg : ∀ t r, g t = some r → r <:+ t) (s : Str) :
    ∃ o, Lua.matched p s = .ok o ∧ (o = some s ↔ g s = some []) := by
  cases s with
  | nil =>
      rw [Lua.matched, Lua.find, hp]
      cases hg₀ : g [] with
      | none => exact ⟨none, rfl, iff_of_false (fun h => nomatch h) (fun h => nomatch h)⟩
      | some r =>
          obtain rfl : r = [] := List.suffix_nil.mp (hg [] r hg₀)
          exact ⟨some [], rfl, iff_of_true rfl rfl⟩
  | cons c s =>
      rw [Lua.matched, Lua.find, hp]
      cases hg₀ : g (c :: s) with
      | none =>
          obtain ⟨o, ho, hlen⟩ := find_eq_ok hp s
          rw [ho]
          cases o with
          | none => exact ⟨none, rfl, iff_of_false (fun h => nomatch h) (fun h => nomatch h)⟩
          | some im =>
              obtain ⟨i, m⟩ := im
              refine ⟨some m, rfl, iff_of_false (fun h => ?_) (fun h => nomatch h)⟩
              have hle := hlen i m rfl
              rw [Option.some.inj h] at hle
              exact absurd hle (Nat.not_succ_le_self _)
      | some r =>
          refine ⟨_, rfl, ?_⟩
          have hle := (hg _ r hg₀).length_le
          rw [Option.map_some, Option.some.injEq, Option.some.injEq, List.take_eq_self_iff]
          constructor
          · intro h
            refine List.eq_nil_of_length_eq_zero ?_
            rw [List.length_cons] at h hle
            omega
          · rintro rfl
            exact Nat.le_refl _

end Find

end Pattern

/-- A text is matched as a whole by the pattern of a wildcard without magic characters
exactly when it is an instance of it. -/
theorem matched_wildcards {w : Str} (h : Unmagic false w) (s : Str) :
    ∃ o, Lua.matched (Path.wildcards w) s = .ok o ∧ (o = some s ↔ GlobMatches w s) := by
  obtain ⟨o, ho, hiff⟩ := matched_eq_self_iff (matchHere_wildcards h (length_globPieces_le w))
    (fun t r hr => (Greedy.reaches_of_match? hr).suffix) s
  exact ⟨o, ho, hiff.trans Greedy.match?_eq_some_nil_iff⟩

end Puremake
