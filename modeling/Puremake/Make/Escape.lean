import Puremake.Make.Selection
import Puremake.Escape.Basic

/-!
# Escaping for makefiles

`_MAKE.esc` puts a backslash in front of backslashes, spaces and parentheses, and then goes over
the result again to undo this for variable references. The pattern of the last replacement ends
at the first closing parenthesis, and it takes away the backslashes of the two parentheses only.
So a reference is left alone when it has nothing to escape in it, and otherwise make reads
another reference than the one that was meant. Different texts are still written differently:
without the backslashes each text comes back.
-/

namespace Puremake

namespace Make

def unesc : Str → Str
  | '\\' :: c :: s => c :: unesc s
  | c :: s => c :: unesc s
  | [] => []

/-- The first replacement of `_MAKE.esc`. -/
def quoted (value : Str) : Str :=
  value.flatMap fun c => if c ∈ "\\ ()".toList then ['\\', c] else [c]

/-- The characters in the order in which `_MAKE.esc` escapes them. -/
def escapes : Escape.Escaping Char where
  entries := [('\\', "\\\\".toList), (' ', "\\ ".toList), ('(', "\\(".toList), (')', "\\)".toList)]
  begins := by simp
  inOrder := by decide
  distinct := by decide

/-- A text as make reads it, where the number says how many parentheses are open since the last
variable reference began: a reference is taken as it stands, up to the parenthesis that closes
it, and one that is not closed is an error. -/
def read : ℕ → Str → Option Str
  | 0, [] => some []
  | 0, '$' :: '(' :: s => (read 1 s).map fun t => '$' :: '(' :: t
  | 0, '\\' :: c :: s =>
      if c ∈ ['\\', ' ', '(', ')'] then (read 0 s).map (c :: ·)
      else (read 0 (c :: s)).map ('\\' :: ·)
  | 0, c :: s => (read 0 s).map (c :: ·)
  | _ + 1, [] => none
  | n + 1, '(' :: s => (read (n + 2) s).map ('(' :: ·)
  | n + 1, ')' :: s => (read n s).map (')' :: ·)
  | n + 1, c :: s => (read (n + 1) s).map (c :: ·)

/-- The parentheses of a text are balanced, when some are open in front of it. -/
def balanced : ℕ → Str → Bool
  | n, [] => n = 0
  | n, '(' :: s => balanced (n + 1) s
  | 0, ')' :: _ => false
  | n + 1, ')' :: s => balanced n s
  | n, _ :: s => balanced n s

/-- Every stretch from a `$(` to the next closing parenthesis has no character that would be
escaped. -/
def PlainReferences (s : Str) : Prop :=
  ∀ pre body post, s = pre ++ '$' :: '(' :: (body ++ ')' :: post) → ')' ∉ body →
    ∀ c ∈ body, c ∉ ['\\', ' ', '(']

/-- A variable reference, with all the references in it. -/
def IsReference (r : Str) : Prop := ∃ body, r = '$' :: '(' :: (body ++ [')']) ∧ balanced 0 body

/-- What is written for a text is read as the text, has its variable references as they are, and
is written for no other text. -/
def Faithful (s : Str) : Prop :=
  read 0 (esc s) = some s ∧ (∀ r, IsReference r → r <:+: s → r <:+: esc s) ∧
    ∀ t, esc t = esc s → t = s

section Quoted

variable {c : Char} {s v body post : Str}

theorem code_eq (c : Char) : Escape.code escapes.entries c =
    if c ∈ "\\ ()".toList then ['\\', c] else [c] := by
  have hkeys : escapes.entries.map Prod.fst = "\\ ()".toList := by decide
  split
  · rename_i hc
    have hspecial : ∀ c ∈ escapes.entries.map Prod.fst,
        Escape.code escapes.entries c = ['\\', c] := by
      simp [escapes, Escape.code]
    exact hspecial c (hkeys ▸ hc)
  · rename_i hc
    exact Escape.code_of_notMem (hkeys ▸ hc)

/-- The four replacements, one after the other, come to the same as one of all four characters. -/
theorem replaceAll_escapes (v : Str) : Escape.replaceAll escapes.entries v = quoted v := by
  rw [Escape.replaceAll_eq]
  exact List.flatMap_congr fun c _ => code_eq c

theorem quoted_cons_of_mem (hc : c ∈ "\\ ()".toList) (v : Str) :
    quoted (c :: v) = '\\' :: c :: quoted v := by
  rw [quoted, List.flatMap_cons, if_pos hc]
  rfl

theorem quoted_cons_of_notMem (hc : c ∉ "\\ ()".toList) (v : Str) :
    quoted (c :: v) = c :: quoted v := by
  rw [quoted, List.flatMap_cons, if_neg hc]
  rfl

theorem quoted_append (v w : Str) : quoted (v ++ w) = quoted v ++ quoted w := List.flatMap_append

theorem head_quoted_ne (v : Str) : (quoted v).head? ≠ some ')' := by
  cases v with
  | nil => simp [quoted]
  | cons c v =>
      by_cases hc : c ∈ "\\ ()".toList
      · rw [quoted_cons_of_mem hc]
        simp
      · rw [quoted_cons_of_notMem hc, List.head?_cons]
        intro h
        exact hc (Option.some.inj h ▸ by decide)

theorem quoted_ne_of_head (h : ∀ u, v ≠ '(' :: u) (t : Str) : quoted v ≠ '\\' :: '(' :: t := by
  cases v with
  | nil => exact fun heq => by cases heq
  | cons d v =>
      by_cases hd : d ∈ "\\ ()".toList
      · rw [quoted_cons_of_mem hd]
        intro heq
        obtain rfl : d = '(' := (List.cons.inj (List.cons.inj heq).2).1
        exact h v rfl
      · rw [quoted_cons_of_notMem hd]
        intro heq
        obtain rfl : d = '\\' := (List.cons.inj heq).1
        exact hd (by decide)

theorem close_mem_quoted : ')' ∈ quoted s ↔ ')' ∈ s := by
  rw [quoted, List.mem_flatMap]
  constructor
  · rintro ⟨c, hc, hmem⟩
    have hclose : ')' = c := by
      split at hmem <;> simpa using hmem
    exact hclose ▸ hc
  · intro h
    exact ⟨')', h, by simp⟩

theorem quoted_of_plain (hbody : ')' ∉ body) (hplain : ∀ c ∈ body, c ∉ ['\\', ' ', '(']) :
    quoted body = body := by
  rw [← replaceAll_escapes]
  refine Escape.replaceAll_of_forall fun e he hmem => ?_
  have hkeys : ∀ e ∈ escapes.entries, e.1 ∈ ['\\', ' ', '('] ∨ e.1 = ')' := by decide
  rcases hkeys e he with hkey | hkey
  · exact hplain _ hmem hkey
  · exact hbody (hkey ▸ hmem)

/-- A text that has something to escape is written longer than it is. -/
theorem length_quoted_lt (h : ∃ c ∈ body, c ∈ ['\\', ' ', '(']) :
    body.length < (quoted body).length := by
  have hle : ∀ s : Str, s.length ≤ (quoted s).length := by
    intro s
    induction s with
    | nil => exact Nat.zero_le _
    | cons c s ih =>
        rw [quoted, List.flatMap_cons, ← quoted]
        split <;> simp <;> omega
  obtain ⟨c, hc, hspecial⟩ := h
  obtain ⟨pre, post, rfl⟩ := List.append_of_mem hc
  have hsub : ∀ c ∈ ['\\', ' ', '('], c ∈ "\\ ()".toList := by simp
  rw [quoted_append, quoted_cons_of_mem (hsub c hspecial)]
  have := hle pre
  have := hle post
  simp
  omega

end Quoted

section Restore

variable {c : Char} {s body post : Str}

theorem cutClosing_cons (h : c = '\\' → s.head? ≠ some ')') :
    cutClosing (c :: s) = (cutClosing s).map fun (a, b) => (c :: a, b) := by
  rw [cutClosing]
  rintro t rfl rfl
  exact h rfl rfl

/-- A text is cut at the first closing parenthesis that was escaped. -/
theorem cutClosing_quoted (hbody : ')' ∉ body) (post : Str) :
    cutClosing (quoted body ++ '\\' :: ')' :: post) = some (quoted body, post) := by
  induction body with
  | nil => rfl
  | cons c body ih =>
      rw [List.mem_cons, not_or] at hbody
      have hhead : (quoted body ++ '\\' :: ')' :: post).head? ≠ some ')' := by
        have hne := head_quoted_ne body
        cases hq : quoted body with
        | nil => simp
        | cons d q =>
            rw [hq] at hne
            exact hne
      by_cases hc : c ∈ "\\ ()".toList
      · rw [quoted_cons_of_mem hc, List.cons_append, List.cons_append, cutClosing_cons,
          cutClosing_cons fun _ => hhead, ih hbody.2]
        · rfl
        · exact fun _ h => hbody.1 (Option.some.inj h).symm
      · rw [quoted_cons_of_notMem hc, List.cons_append, cutClosing_cons fun _ => hhead, ih hbody.2]
        rfl

theorem cutClosing_of_notMem (h : ')' ∉ s) : cutClosing s = none := by
  induction s with
  | nil => rfl
  | cons c s ih =>
      rw [List.mem_cons, not_or] at h
      rw [cutClosing_cons, ih h.2]
      · rfl
      · exact fun _ hhead => h.2 (List.mem_of_mem_head? hhead)

theorem length_of_cutClosing {a b : Str} (h : cutClosing s = some (a, b)) :
    b.length ≤ s.length := by
  induction s generalizing a with
  | nil => cases h
  | cons c s ih =>
      by_cases hc : c = '\\' ∧ s.head? = some ')'
      · obtain ⟨rfl, hs⟩ := hc
        obtain ⟨t, rfl⟩ := List.head?_eq_some_iff.mp hs
        obtain ⟨-, rfl⟩ := Prod.mk.inj (Option.some.inj h)
        simp
        omega
      · rw [cutClosing_cons fun h₁ h₂ => hc ⟨h₁, h₂⟩] at h
        obtain ⟨⟨a', b'⟩, hcut, heq⟩ := Option.map_eq_some_iff.mp h
        obtain ⟨-, rfl⟩ := Prod.mk.inj heq
        exact Nat.le_succ_of_le (ih hcut)

theorem restoreShell_cons (h : c ≠ '$') (fuel : ℕ) :
    restoreShell (fuel + 1) (c :: s) = c :: restoreShell fuel s := by
  rw [restoreShell]
  rintro t rfl
  exact absurd rfl h

theorem restoreShell_dollar (h : ∀ t, s ≠ '\\' :: '(' :: t) (fuel : ℕ) :
    restoreShell (fuel + 1) ('$' :: s) = '$' :: restoreShell fuel s := by
  rw [restoreShell]
  exact fun t _ ht => h t ht

theorem restoreShell_congr {fuel fuel' : ℕ} (h : s.length ≤ fuel) (h' : s.length ≤ fuel') :
    restoreShell fuel s = restoreShell fuel' s := by
  induction fuel using Nat.strongRecOn generalizing s fuel' with
  | _ fuel ih =>
      cases s with
      | nil => cases fuel <;> cases fuel' <;> rfl
      | cons c s =>
          obtain ⟨fuel, rfl⟩ : ∃ k, fuel = k + 1 := ⟨fuel - 1, by simp at h; omega⟩
          obtain ⟨fuel', rfl⟩ : ∃ k, fuel' = k + 1 := ⟨fuel' - 1, by simp at h'; omega⟩
          have hs := ih fuel (Nat.lt_succ_self _) (Nat.le_of_succ_le_succ h)
            (Nat.le_of_succ_le_succ h')
          by_cases hc : c = '$'
          · subst hc
            by_cases hopen : ∃ t, s = '\\' :: '(' :: t
            · obtain ⟨t, rfl⟩ := hopen
              rw [restoreShell, restoreShell]
              cases hcut : cutClosing t with
              | none => exact congrArg _ hs
              | some ab =>
                  have hlength := length_of_cutClosing hcut
                  rw [List.length_cons, List.length_cons, List.length_cons] at h h'
                  exact congrArg _ (congrArg _ (congrArg _ (congrArg _
                    (ih fuel (Nat.lt_succ_self _) (by omega) (by omega)))))
            · have hne : ∀ t, s ≠ '\\' :: '(' :: t := fun t ht => hopen ⟨t, ht⟩
              rw [restoreShell_dollar hne, restoreShell_dollar hne, hs]
          · rw [restoreShell_cons hc, restoreShell_cons hc, hs]

theorem esc_eq (v : Str) : esc v = restoreShell (quoted v).length (quoted v) := rfl

/-- A character that begins no closed reference is escaped by itself. -/
theorem esc_cons (h : c = '$' → ∀ t, s = '(' :: t → ')' ∉ t) :
    esc (c :: s) = (if c ∈ "\\ ()".toList then ['\\', c] else [c]) ++ esc s := by
  by_cases hc : c ∈ "\\ ()".toList
  · have hdollar : c ≠ '$' := fun h => absurd (h ▸ hc) (by decide)
    rw [esc_eq, quoted_cons_of_mem hc, List.length_cons, restoreShell_cons (by decide),
      List.length_cons, restoreShell_cons hdollar, if_pos hc]
    rfl
  · rw [esc_eq, quoted_cons_of_notMem hc, List.length_cons, if_neg hc]
    by_cases hdollar : c = '$'
    · subst hdollar
      by_cases hopen : ∃ t, s = '(' :: t
      · obtain ⟨t, rfl⟩ := hopen
        have hcut : cutClosing (quoted t) = none :=
          cutClosing_of_notMem fun hmem => h rfl t rfl (close_mem_quoted.mp hmem)
        rw [quoted_cons_of_mem (by decide), restoreShell, hcut, esc_eq,
          quoted_cons_of_mem (by decide)]
        rfl
      · rw [restoreShell_dollar (quoted_ne_of_head fun u hu => hopen ⟨u, hu⟩)]
        rfl
    · rw [restoreShell_cons hdollar]
      rfl

/-- In a closed reference the backslashes are taken away from the parentheses only. -/
theorem esc_reference (hbody : ')' ∉ body) (post : Str) :
    esc ('$' :: '(' :: (body ++ ')' :: post)) = '$' :: '(' :: (quoted body ++ ')' :: esc post) := by
  have hquoted : quoted ('$' :: '(' :: (body ++ ')' :: post)) =
      '$' :: '\\' :: '(' :: (quoted body ++ '\\' :: ')' :: quoted post) := by
    rw [quoted_cons_of_notMem (by decide), quoted_cons_of_mem (by decide), quoted_append,
      quoted_cons_of_mem (by decide)]
  rw [esc_eq, hquoted, List.length_cons, restoreShell, cutClosing_quoted hbody]
  have hfuel : restoreShell ('\\' :: '(' :: (quoted body ++ '\\' :: ')' :: quoted post)).length
      (quoted post) = esc post := restoreShell_congr (by simp; omega) le_rfl
  simp only [hfuel, List.cons_append]

end Restore


section Unesc

variable {c : Char} {s body post : Str}

theorem unesc_cons (hc : c ≠ '\\') (s : Str) : unesc (c :: s) = c :: unesc s := by
  rw [unesc]
  exact fun d t h => absurd h hc

theorem unesc_quoted_append (v rest : Str) : unesc (quoted v ++ rest) = v ++ unesc rest := by
  induction v with
  | nil => rfl
  | cons c v ih =>
      by_cases hc : c ∈ "\\ ()".toList
      · rw [quoted_cons_of_mem hc, List.cons_append, List.cons_append, unesc, ih]
        rfl
      · have hne : c ≠ '\\' := fun h => hc (h ▸ by decide)
        rw [quoted_cons_of_notMem hc, List.cons_append, unesc_cons hne, ih]
        rfl

/-- A text is empty, or it begins with a closed reference, or with another character. -/
theorem text_induction {P : Str → Prop} (nil : P [])
    (cons : ∀ c s, (c = '$' → ∀ t, s = '(' :: t → ')' ∉ t) → P s → P (c :: s))
    (reference : ∀ body post, ')' ∉ body → P post → P ('$' :: '(' :: (body ++ ')' :: post)))
    (s : Str) : P s := by
  induction hn : s.length using Nat.strongRecOn generalizing s with
  | _ n ih =>
      subst hn
      cases s with
      | nil => exact nil
      | cons c s =>
          by_cases h : c = '$' → ∀ t, s = '(' :: t → ')' ∉ t
          · exact cons c s h (ih _ (Nat.lt_succ_self _) s rfl)
          · simp only [not_forall, not_not] at h
            obtain ⟨rfl, t, rfl, ht⟩ := h
            obtain ⟨body, post, rfl, hbody⟩ := List.eq_append_cons_of_mem ht
            refine reference body post hbody (ih _ ?_ post rfl)
            simp
            omega

theorem unesc_esc (s : Str) : unesc (esc s) = s := by
  induction s using text_induction with
  | nil => rfl
  | cons c s hc ih =>
      rw [esc_cons hc]
      split
      · rw [List.cons_append, List.singleton_append, unesc, ih]
      · rename_i hmem
        have hne : c ≠ '\\' := fun h => hmem (h ▸ by decide)
        rw [List.singleton_append, unesc_cons hne, ih]
  | reference body post hbody ih =>
      rw [esc_reference hbody, unesc_cons (by decide), unesc_cons (by decide), unesc_quoted_append,
        unesc_cons (by decide), ih]

theorem esc_injective : Function.Injective esc := Function.LeftInverse.injective unesc_esc

theorem length_unesc_cons (c : Char) (s : Str) :
    (unesc s).length ≤ (unesc (c :: s)).length ∧
      (unesc (c :: s)).length ≤ (unesc s).length + 1 := by
  induction s generalizing c with
  | nil =>
      by_cases hc : c = '\\'
      · subst hc
        decide
      · rw [unesc_cons hc]
        simp [unesc]
  | cons d s ih =>
      by_cases hc : c = '\\'
      · subst hc
        have hs : unesc ('\\' :: d :: s) = d :: unesc s := rfl
        rw [hs, List.length_cons]
        have := ih d
        omega
      · rw [unesc_cons hc, List.length_cons]
        omega

theorem length_unesc_le {n : ℕ} {s t : Str} (h : read n s = some t) :
    (unesc s).length ≤ t.length := by
  have hcons : ∀ {u v w : Str} (c : Char), (unesc u).length ≤ v.length → c :: v = w →
      (unesc (c :: u)).length ≤ w.length := by
    rintro u v w c hu rfl
    exact Nat.le_trans (length_unesc_cons c u).2 (Nat.succ_le_succ hu)
  induction n, s using read.induct generalizing t with
  | case1 => simp [unesc]
  | case2 s ih =>
      obtain ⟨u, hu, rfl⟩ := Option.map_eq_some_iff.mp h
      exact hcons '$' (hcons '(' (ih hu) rfl) rfl
  | case3 c s hc ih =>
      rw [read, if_pos hc] at h
      obtain ⟨u, hu, rfl⟩ := Option.map_eq_some_iff.mp h
      exact Nat.succ_le_succ (ih hu)
  | case4 c s hc ih =>
      rw [read, if_neg hc] at h
      obtain ⟨u, hu, rfl⟩ := Option.map_eq_some_iff.mp h
      exact hcons '\\' (ih hu) rfl
  | case5 c s hopen hescape ih =>
      rw [read.eq_4 c s hopen hescape] at h
      obtain ⟨u, hu, rfl⟩ := Option.map_eq_some_iff.mp h
      exact hcons c (ih hu) rfl
  | case6 n => cases h
  | case7 n s ih =>
      obtain ⟨u, hu, rfl⟩ := Option.map_eq_some_iff.mp h
      exact hcons '(' (ih hu) rfl
  | case8 n s ih =>
      obtain ⟨u, hu, rfl⟩ := Option.map_eq_some_iff.mp h
      exact hcons ')' (ih hu) rfl
  | case9 n c s hopen hclose ih =>
      rw [read.eq_8 n c s hopen hclose] at h
      obtain ⟨u, hu, rfl⟩ := Option.map_eq_some_iff.mp h
      exact hcons c (ih hu) rfl

end Unesc

section Read

variable {c : Char}

theorem read_cons (hescape : c ≠ '\\') {s : Str} (hopen : c = '$' → ∀ t, s ≠ '(' :: t) :
    read 0 (c :: s) = (read 0 s).map (c :: ·) := by
  rw [read]
  · rintro t rfl rfl
    exact hopen rfl t rfl
  · exact fun _ _ h _ => hescape h

theorem read_char {s : Str} (hopen : c = '$' → ∀ t, s ≠ '(' :: t) :
    read 0 ((if c ∈ "\\ ()".toList then ['\\', c] else [c]) ++ s) = (read 0 s).map (c :: ·) := by
  have hkeys : "\\ ()".toList = ['\\', ' ', '(', ')'] := by decide
  rw [hkeys]
  split
  · rename_i hc
    rw [List.cons_append, List.singleton_append, read, if_pos hc]
  · rename_i hc
    exact read_cons (fun h => hc (by simp [h])) hopen

/-- Inside of a reference everything is taken up to the next closing parenthesis. -/
theorem read_append {body : Str} (hbody : ')' ∉ body) (n : ℕ) (s : Str) :
    read (n + 1) (body ++ s) = (read (n + body.count '(' + 1) s).map (body ++ ·) := by
  induction body generalizing n with
  | nil => simp
  | cons c body ih =>
      rw [List.mem_cons, not_or] at hbody
      by_cases hopen : c = '('
      · subst hopen
        rw [List.cons_append, read, ih hbody.2 (n + 1), Option.map_map, List.count_cons_self]
        have hcount : n + 1 + body.count '(' + 1 = n + (body.count '(' + 1) + 1 := by omega
        rw [hcount]
        rfl
      · rw [List.cons_append, read, ih hbody.2 n, Option.map_map,
          List.count_cons_of_ne hopen]
        · rfl
        · exact hopen
        · exact Ne.symm hbody.1

end Read

section PlainReferences

variable {c : Char} {s body post : Str}

/-- A text is cut at its first closing parenthesis in one way only. -/
theorem eq_of_append_close {b p : Str} (hbody : ')' ∉ body) (hb : ')' ∉ b)
    (h : body ++ ')' :: post = b ++ ')' :: p) : body = b ∧ post = p := by
  rcases List.append_eq_append_iff.mp h with ⟨mid, rfl, hmid⟩ | ⟨mid, rfl, hmid⟩
  · cases mid with
    | nil => simp_all
    | cons d mid => simp_all
  · cases mid with
    | nil => simp_all
    | cons d mid => simp_all

theorem plainReferences_nil : PlainReferences [] := by
  intro pre body post h
  simp at h

theorem PlainReferences.tail (h : PlainReferences (c :: s)) : PlainReferences s := by
  rintro pre body post rfl
  exact h (c :: pre) body post rfl

theorem plainReferences_cons (h : c = '$' → ∀ body post, s = '(' :: (body ++ ')' :: post) →
    ')' ∉ body → ∀ c ∈ body, c ∉ ['\\', ' ', '(']) (hs : PlainReferences s) :
    PlainReferences (c :: s) := by
  intro pre body post heq
  cases pre with
  | nil =>
      obtain ⟨hc, htail⟩ := List.cons.inj heq
      exact h hc body post htail
  | cons p pre => exact hs pre body post (List.cons.inj heq).2

theorem plainReferences_append (hbody : '(' ∉ body) (hs : PlainReferences (')' :: post)) :
    PlainReferences (body ++ ')' :: post) := by
  induction body with
  | nil => exact hs
  | cons c body ih =>
      rw [List.mem_cons, not_or] at hbody
      refine plainReferences_cons (fun _ b p heq => ?_) (ih hbody.2)
      cases body with
      | nil => simp at heq
      | cons d body => simp_all

theorem plainReferences_reference (hclose : ')' ∉ body) :
    PlainReferences ('$' :: '(' :: (body ++ ')' :: post)) ↔
      (∀ c ∈ body, c ∉ ['\\', ' ', '(']) ∧ PlainReferences post := by
  constructor
  · intro h
    refine ⟨h [] body post rfl hclose, ?_⟩
    intro pre b p heq
    refine h ('$' :: '(' :: (body ++ ')' :: pre)) b p ?_
    rw [heq]
    simp
  · rintro ⟨hplain, hpost⟩
    have hclosed : PlainReferences (')' :: post) :=
      plainReferences_cons (fun h => absurd h (by decide)) hpost
    have hopened : PlainReferences ('(' :: (body ++ ')' :: post)) :=
      plainReferences_cons (fun h => absurd h (by decide))
        (plainReferences_append (fun h => hplain _ h (by simp)) hclosed)
    refine plainReferences_cons (fun _ b p heq hb => ?_) hopened
    obtain ⟨rfl, -⟩ := eq_of_append_close hclose hb (List.cons.inj heq).2
    exact hplain

theorem head_esc (t : Str) : esc s ≠ '(' :: t := by
  induction s using text_induction with
  | nil => exact fun h => by cases h
  | cons c s h =>
      rw [esc_cons h]
      split
      · simp
      · rename_i hc
        intro heq
        obtain rfl : c = '(' := (List.cons.inj heq).1
        exact hc (by decide)
  | reference body post hbody =>
      rw [esc_reference hbody]
      simp

theorem read_esc (h : PlainReferences s) : read 0 (esc s) = some s := by
  induction s using text_induction with
  | nil => rfl
  | cons c s hc ih =>
      rw [esc_cons hc, read_char fun _ => head_esc, ih h.tail]
      rfl
  | reference body post hbody ih =>
      obtain ⟨hplain, hpost⟩ := (plainReferences_reference hbody).mp h
      have hcount : body.count '(' = 0 :=
        List.count_eq_zero.mpr fun hopen => hplain _ hopen (by simp)
      rw [esc_reference hbody, quoted_of_plain hbody hplain, read, read_append hbody, hcount,
        read, ih hpost]
      rfl

/-- A text that is read back has plain references: what is escaped inside of one stays. -/
theorem plainReferences_of_read (h : read 0 (esc s) = some s) : PlainReferences s := by
  induction s using text_induction with
  | nil => exact plainReferences_nil
  | cons c s hc ih =>
      rw [esc_cons hc, read_char fun _ => head_esc] at h
      obtain ⟨t, ht, heq⟩ := Option.map_eq_some_iff.mp h
      obtain rfl : t = s := (List.cons.inj heq).2
      refine plainReferences_cons (fun hdollar b p hs => ?_) (ih ht)
      exact absurd (by simp) (hc hdollar _ hs)
  | reference body post hbody ih =>
      rw [esc_reference hbody, read] at h
      obtain ⟨t, ht, heq⟩ := Option.map_eq_some_iff.mp h
      obtain rfl : t = body ++ ')' :: post := by simpa using heq
      have hquoted : ')' ∉ quoted body := mt close_mem_quoted.mp hbody
      rw [read_append hquoted, read] at ht
      obtain ⟨u, hu, heq⟩ := Option.map_eq_some_iff.mp ht
      obtain ⟨v, hv, rfl⟩ := Option.map_eq_some_iff.mp hu
      have hlength := length_unesc_le hv
      rw [unesc_esc] at hlength
      -- what is read is at least as long as the rest, so the body cannot have grown
      have hplain : ∀ c ∈ body, c ∉ ['\\', ' ', '('] := by
        by_contra hnot
        simp only [not_forall, not_not] at hnot
        obtain ⟨c, hc, hspecial⟩ := hnot
        have hlonger := length_quoted_lt ⟨c, hc, hspecial⟩
        have := congrArg List.length heq
        simp at this
        omega
      obtain ⟨-, rfl⟩ := eq_of_append_close hquoted hbody heq
      refine (plainReferences_reference hbody).mpr ⟨hplain, ih ?_⟩
      have hcount : (quoted body).count '(' = 0 := by
        rw [quoted_of_plain hbody hplain]
        exact List.count_eq_zero.mpr fun hopen => hplain _ hopen (by simp)
      rw [hcount] at hv
      exact hv

/-- A reference does not begin inside of a stretch without opening parentheses. -/
theorem infix_of_infix_append {r : Str} (hbody : '(' ∉ body)
    (h : '$' :: '(' :: r <:+: body ++ ')' :: post) : '$' :: '(' :: r <:+: post := by
  induction body with
  | nil =>
      rcases List.infix_cons_iff.mp h with h | h
      · exact absurd (List.cons_prefix_cons.mp h).1 (by decide)
      · exact h
  | cons c body ih =>
      rw [List.mem_cons, not_or] at hbody
      rcases List.infix_cons_iff.mp h with h | h
      · have htail := (List.cons_prefix_cons.mp h).2
        cases body with
        | nil => exact absurd (List.cons_prefix_cons.mp htail).1 (by decide)
        | cons d body =>
            refine absurd ?_ hbody.2
            rw [(List.cons_prefix_cons.mp htail).1]
            exact List.mem_cons_self
      · exact ih hbody.2 h

/-- A closed reference is written as it is when it has nothing to escape. -/
theorem infix_esc (h : PlainReferences s) (hbody : ')' ∉ body)
    (hs : '$' :: '(' :: (body ++ [')']) <:+: s) : '$' :: '(' :: (body ++ [')']) <:+: esc s := by
  induction s using text_induction with
  | nil => simp at hs
  | cons c s hc ih =>
      rw [esc_cons hc]
      rcases List.infix_cons_iff.mp hs with hs | hs
      · obtain ⟨hdollar, t, rfl⟩ := List.cons_prefix_cons.mp hs
        exact absurd (by simp) (hc hdollar.symm _ rfl)
      · exact (ih h.tail hs).trans (List.suffix_append _ _).isInfix
  | reference b post hb ih =>
      obtain ⟨hplain, hpost⟩ := (plainReferences_reference hb).mp h
      rw [esc_reference hb, quoted_of_plain hb hplain]
      rcases List.infix_cons_iff.mp hs with hs | hs
      · obtain ⟨t, ht⟩ := (List.cons_prefix_cons.mp (List.cons_prefix_cons.mp hs).2).2
        rw [List.append_assoc] at ht
        obtain ⟨rfl, -⟩ := eq_of_append_close hbody hb ht
        exact ⟨[], esc post, by simp⟩
      · rcases List.infix_cons_iff.mp hs with hs | hs
        · exact absurd (List.cons_prefix_cons.mp hs).1 (by decide)
        · have hopen : '(' ∉ b := fun hopen => hplain _ hopen (by simp)
          have hinner := ih hpost (infix_of_infix_append hopen hs)
          refine hinner.trans (List.IsSuffix.isInfix ?_)
          exact ⟨'$' :: '(' :: (b ++ [')']), by simp⟩

/-- In plain references the first closing parenthesis is the one that closes. -/
theorem close_notMem_of_balanced (h : PlainReferences s)
    (hs : '$' :: '(' :: (body ++ [')']) <:+: s) (hbalanced : balanced 0 body) : ')' ∉ body := by
  intro hclose
  obtain ⟨b, t, rfl, hb⟩ := List.eq_append_cons_of_mem hclose
  obtain ⟨pre, post, rfl⟩ := hs
  have hplain := h pre b (t ++ ')' :: post) (by simp) hb
  have hskip : ∀ b : Str, '(' ∉ b → ')' ∉ b → balanced 0 (b ++ ')' :: t) = false := by
    intro b hopen hb
    induction b with
    | nil => rfl
    | cons c b ih =>
        rw [List.mem_cons, not_or] at hopen hb
        rw [List.cons_append, balanced]
        · exact ih hopen.2 hb.2
        · exact Ne.symm hopen.1
        · exact fun _ h => hb.1 h.symm
        · exact fun _ _ h => hb.1 h.symm
  rw [hskip b (fun hopen => hplain _ hopen (by simp)) hb] at hbalanced
  cases hbalanced

end PlainReferences

/-- A text is escaped faithfully exactly when no variable reference has a space, a backslash or
a parenthesis in it, up to the next closing parenthesis. -/
theorem faithful_iff_plainReferences (s : Str) : Faithful s ↔ PlainReferences s := by
  constructor
  · rintro ⟨hread, -⟩
    exact plainReferences_of_read hread
  · intro h
    refine ⟨read_esc h, ?_, fun t ht => esc_injective ht⟩
    rintro r ⟨body, rfl, hbalanced⟩ hs
    exact infix_esc h (close_notMem_of_balanced h hs hbalanced) hs

/-- A reference with arguments is not read back: make sees a backslash in front of the space. -/
theorem not_faithful_shell : ¬ Faithful "$(shell pkg-config)".toList := by
  rintro ⟨hread, -⟩
  have h := plainReferences_of_read hread [] "shell pkg-config".toList [] rfl (by decide) ' '
  simp at h

end Make

end Puremake
