import Puremake.Lua.Str

/-!
# Lua patterns

`string.match` and `string.find` for the patterns that the program can hand to
them. Every pattern comes out of `path.wildcards`, which escapes the anchors,
the captures and the quantifiers `+` and `-`, so a pattern is a sequence of
single-character classes, each of them possibly followed by `?` or `*`. The
classes are a literal character, an escaped one, `.` and a set in brackets.

A set that is not closed makes the pattern malformed. As in the C code this is
only noticed when the matcher arrives there, so the matcher returns an
exception. Patterns with a NUL are left out: Lua 5.1 takes it for the end of the
pattern, here it stands for itself.
-/

namespace Puremake

namespace Lua

inductive PatternError
  | missingBracket
  | endsWithPercent
  deriving DecidableEq, Repr

def PatternError.message : PatternError → Str
  | .missingBracket => "malformed pattern (missing ']')".toList
  | .endsWithPercent => "malformed pattern (ends with '%')".toList

/-- A class of characters. The text of a set is kept as it stands in the
pattern. -/
inductive CharClass
  | any
  | lit (c : Char)
  | set (negated : Bool) (text : Str)
  deriving DecidableEq, Repr

/-- Does the text of a set contain the character? An escape stands for the
escaped character, and `-` between two characters for a range. -/
def setHas (c : Char) : Str → Bool
  | [] => false
  | '%' :: d :: p => c = d || setHas c p
  | a :: '-' :: b :: p => (a ≤ c && c ≤ b) || setHas c p
  | a :: p => c = a || setHas c p

def CharClass.has (c : Char) : CharClass → Bool
  | .any => true
  | .lit d => c = d
  | .set negated text => setHas c text != negated

/-- The text of a set up to its closing bracket, and what follows the bracket.
The first character always belongs to the set. -/
def setText : Str → Option (Str × Str)
  | [] => none
  | '%' :: c :: p =>
      match p with
      | ']' :: q => some (['%', c], q)
      | p => (setText p).map fun (t, q) => ('%' :: c :: t, q)
  | c :: p =>
      match p with
      | ']' :: q => some ([c], q)
      | p => (setText p).map fun (t, q) => (c :: t, q)

def classEnd : Str → Except PatternError (Option (CharClass × Str))
  | [] => .ok none
  | ['%'] => .error .endsWithPercent
  | '%' :: c :: p => .ok (some (.lit c, p))
  | '[' :: '^' :: p =>
      match setText p with
      | none => .error .missingBracket
      | some (t, q) => .ok (some (.set true t, q))
  | '[' :: p =>
      match setText p with
      | none => .error .missingBracket
      | some (t, q) => .ok (some (.set false t, q))
  | '.' :: p => .ok (some (.any, p))
  | c :: p => .ok (some (.lit c, p))

/-- The suffixes of a text that are left after some characters of a class, the
shortest one first. -/
def expansions (cl : CharClass) : Str → List Str
  | [] => [[]]
  | c :: s => if cl.has c then expansions cl s ++ [c :: s] else [c :: s]

/-- The function `match` of the pattern matcher: what is left of the text `s`
when the pattern matches at its beginning. The fuel bounds the number of
classes in the pattern. -/
def matchHere : ℕ → Str → Str → Except PatternError (Option Str)
  | 0, _, s => .ok (some s)
  | fuel + 1, p, s => do
      match ← classEnd p with
      | none => .ok (some s)
      | some (cl, '?' :: q) =>
          match s with
          | [] => matchHere fuel q []
          | c :: t =>
              if cl.has c then
                match ← matchHere fuel q t with
                | some r => .ok (some r)
                | none => matchHere fuel q (c :: t)
              else matchHere fuel q (c :: t)
      | some (cl, '*' :: q) =>
          (expansions cl s).foldr (fun t next => do
            match ← matchHere fuel q t with
            | some r => .ok (some r)
            | none => next) (.ok none)
      | some (cl, q) =>
          match s with
          | [] => .ok none
          | c :: t => if cl.has c then matchHere fuel q t else .ok none

/-- `s:find(p)`: where the pattern matches first, and what it matches there. -/
def find (p : Str) : Str → Except PatternError (Option (ℕ × Str))
  | [] => do
      match ← matchHere p.length p [] with
      | some _ => .ok (some (1, []))
      | none => .ok none
  | c :: s => do
      match ← matchHere p.length p (c :: s) with
      | some r => .ok (some (1, (c :: s).take ((c :: s).length - r.length)))
      | none =>
          match ← find p s with
          | some (i, m) => .ok (some (i + 1, m))
          | none => .ok none

/-- `s:match(p)` for a pattern without captures. -/
def matched (p s : Str) : Except PatternError (Option Str) := do
  return (← find p s).map (·.2)

end Lua

namespace Path

/-- `path.wildcards`: the characters that are special in a Lua pattern are
escaped, `**` matches anything and `*` anything but a slash. -/
def wildcards : Str → Str
  | [] => []
  | '*' :: '*' :: s => '.' :: '*' :: wildcards s
  | '*' :: s => "[^/]*".toList ++ wildcards s
  | c :: s =>
      if c ∈ "+.-^$()%".toList then '%' :: c :: wildcards s
      else if c = '\x01' then '.' :: '*' :: wildcards s
      else if c = '\x02' then "[^/]*".toList ++ wildcards s
      else c :: wildcards s

end Path

example : Lua.matched (Path.wildcards "src/**.c".toList) "src/a/b.c".toList =
    .ok (some "src/a/b.c".toList) := by rfl

example : Lua.matched (Path.wildcards "debug[".toList) "release".toList = .ok none := by rfl

example : Lua.matched (Path.wildcards "debug[".toList) "debug".toList =
    .error .missingBracket := by rfl

end Puremake
