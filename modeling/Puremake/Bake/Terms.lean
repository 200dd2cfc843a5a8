import Puremake.Lua.Pattern
import Puremake.Lua.Table

/-!
# Filter terms and keywords

A configuration block is kept when each of its keywords matches a term. The
terms are the entries of one Lua table: the active options under their index,
and the action, the system, the configuration, the platform, the kind and, for
the settings of a file, the name of the file under their names. The table is
modelled by a record with a field for every name that is ever written.

`Terms.overlay` is the loop that copies one table of terms into another. It
replaces the entries that the source has and leaves the others, so the words
that a block was declared with stay behind the options.
-/

namespace Puremake

/-- The errors that end a bake, and the end of the fuel that a recursion is given. -/
inductive BakeError
  | pattern (e : Lua.PatternError)
  | indexNil
  | outOfFuel
  deriving DecidableEq, Repr

/-- The parts of an action that a bake reads: the system that it is for, and the
C/C++ tools that it can use. -/
structure Action where
  os : Option Str
  cc : Option (List Str)

/-- What a bake reads from its surroundings: `_ACTION`, `os.get()`, `_OPTIONS`,
the current directory, the current action and the order of `pairs`. -/
structure Env where
  action : Str
  os : Str
  options : List (Str × Str)
  cwd : Str
  current : Action
  ord : PairsOrder

/-- A bake for `gmake` on Linux, without options. -/
def Env.gmake : Env where
  action := "gmake".toList
  os := "linux".toList
  options := []
  cwd := "/home".toList
  current := ⟨none, some ["gcc".toList]⟩
  ord := .insertion

structure Terms where
  words : List Str
  action : Option Str
  os : Option Str
  config : Option Str
  platform : Option Str
  kind : Option Str
  required : Option Str
  deriving DecidableEq, Repr

inductive TermKey
  | word (i : ℕ)
  | action
  | os
  | config
  | platform
  | kind
  | required
  deriving DecidableEq, Repr

namespace Terms

/-- A table that holds nothing but words, as a configuration block has it. -/
def ofWords (words : List Str) : Terms := ⟨words, none, none, none, none, none, none⟩

def entries (t : Terms) : List (TermKey × Str) :=
  t.words.zipIdx.map (fun (w, i) => (.word (i + 1), w)) ++
    t.action.toList.map (.action, ·) ++ t.os.toList.map (.os, ·) ++
    t.config.toList.map (.config, ·) ++ t.platform.toList.map (.platform, ·) ++
    t.kind.toList.map (.kind, ·) ++ t.required.toList.map (.required, ·)

/-- `for k,v in pairs(src) do t[k] = v end` -/
def overlay (t src : Terms) : Terms where
  words := src.words ++ t.words.drop src.words.length
  action := src.action <|> t.action
  os := src.os <|> t.os
  config := src.config <|> t.config
  platform := src.platform <|> t.platform
  kind := src.kind <|> t.kind
  required := src.required <|> t.required

end Terms

def getactiveterms (env : Env) : Terms where
  words := (env.ord.enum env.options).map fun (key, value) =>
    if value ≠ [] then Str.lower value else Str.lower key
  action := some (Str.lower env.action)
  os := some env.os
  config := none
  platform := none
  kind := none
  required := none

/-- The result of a match that counts: a negated keyword gives `true`, any
other the key of the term. -/
inductive Matched
  | negated
  | key (k : TermKey)
  deriving DecidableEq, Repr

/-- `s:explode(" or ")`, where `acc` holds the characters since the last
separator. -/
def explodeOr (acc : Str) : Str → List Str
  | ' ' :: 'o' :: 'r' :: ' ' :: s => acc :: explodeOr [] s
  | c :: s => explodeOr (acc ++ [c]) s
  | [] => [acc]

def matchTerms (pattern : Str) : List (TermKey × Str) → Except BakeError (Option TermKey)
  | [] => .ok none
  | (k, term) :: terms =>
      match Lua.matched pattern term with
      | .error e => .error (.pattern e)
      | .ok m => if m = some term then .ok (some k) else matchTerms pattern terms

def matchPatterns (terms : List (TermKey × Str)) : List Str → Except BakeError (Option TermKey)
  | [] => .ok none
  | pattern :: patterns => do
      match ← matchTerms pattern terms with
      | some k => return some k
      | none => matchPatterns terms patterns

def iskeywordmatch (ord : PairsOrder) (terms : Terms) : Str → Except BakeError (Option Matched)
  | 'n' :: 'o' :: 't' :: ' ' :: keyword => do
      match ← iskeywordmatch ord terms keyword with
      | some _ => return none
      | none => return some .negated
  | keyword => do
      return (← matchPatterns (ord.enum terms.entries) (explodeOr [] keyword)).map .key

/-- The loop of `premake.iskeywordsmatch`. -/
def keywordsLoop (ord : PairsOrder) (terms : Terms) (hasrequired : Bool) :
    List Str → Except BakeError Bool
  | [] => .ok (terms.required.isNone || hasrequired)
  | keyword :: keywords => do
      match ← iskeywordmatch ord terms keyword with
      | none => return false
      | some m =>
          keywordsLoop ord terms (hasrequired || m = .key .required) keywords

def iskeywordsmatch (ord : PairsOrder) (keywords : List Str) (terms : Terms) :
    Except BakeError Bool :=
  keywordsLoop ord terms false keywords

/-- The keywords that `configuration` makes of the words of a block. -/
def keywordsOf (words : List Str) : List Str :=
  words.map fun word => Str.lower (Path.wildcards word)

section Overlay

variable (t src : Terms)

@[simp] theorem Terms.overlay_kind :
    (t.overlay src).kind = (src.kind <|> t.kind) := rfl

end Overlay

example : iskeywordsmatch .insertion (keywordsOf ["Debug or Release".toList, "not x32".toList])
    { Terms.ofWords [] with config := some "release".toList, platform := some "x64".toList } =
    .ok true := by rfl

end Puremake
