import Puremake.Tree.Built
import Puremake.Tree.Printing
import Puremake.Vstudio.Solution
import Puremake.Vstudio.Filters
import Puremake.Xml.Attribute

/-!
# Lines of the project files of IDEs

The generators write their files line by line with `_p`, each line at a depth. In a line that
names a file of the project, the value of the attribute with the name is kept apart from what
stands before and behind it, so that it can be read back; the quotes around it are printed with
the line.

A project comes with its root configuration, which it is asked for its fields, and with the
entries of `sln.vstudio_configs`, each with the configuration that `premake.getconfig` finds
for it.
-/

namespace Puremake

namespace Ide

/-- A line that `_p` writes. -/
inductive Line
  | text (depth : ℕ) (s : Str)
  | file (depth : ℕ) (front value back : Str)
  deriving DecidableEq, Repr

/-- The text of a line, with `io.indent` and `io.eol`. -/
def Line.print (indent eol : Str) : Line → Str
  | .text depth s => (List.replicate depth indent).flatten ++ s ++ eol
  | .file depth front value back =>
      (List.replicate depth indent).flatten ++ front ++ '"' :: value ++ '"' :: back ++ eol

def Line.name? : Line → Option (Option Str)
  | .text _ _ => none
  | .file _ _ value _ => some (Xml.attrValue value)

def named (lines : List Line) : List (Option Str) := lines.filterMap Line.name?

/-- A project as the generators see it. The entries for Visual Studio have their configurations,
and only a configuration for the platform PS3 is built for the system of this name. -/
structure Project where
  name : Str
  root : BakedConfig
  configs : List (Vstudio.Config × BakedConfig)
  crosscompiled : ∀ c ∈ configs, c.2.system = "PS3".toList → c.2.platform = "PS3".toList

theorem crosscompiled_nil : ∀ c ∈ ([] : List (Vstudio.Config × BakedConfig)),
    c.2.system = "PS3".toList → c.2.platform = "PS3".toList :=
  fun _ h => absurd h List.not_mem_nil

/-- `cfg.flags[flag]` -/
def hasFlag (cfg : BakedConfig) (flag : String) : Bool :=
  flag.toList ∈ (cfg.fields.list .flags).keys

def iscproject (prj : Project) : Bool := prj.root.fields .language = some "C".toList

def quoted (front : String) (value : Str) (back : String) : Str :=
  front.toList ++ '"' :: value ++ '"' :: back.toList

section Named

theorem named_append (lines lines' : List Line) :
    named (lines ++ lines') = named lines ++ named lines' :=
  List.filterMap_append

theorem named_text (depth : ℕ) (s : Str) (lines : List Line) :
    named (.text depth s :: lines) = named lines := rfl

theorem named_file (depth : ℕ) (front value back : Str) (lines : List Line) :
    named (.file depth front value back :: lines) = Xml.attrValue value :: named lines := rfl

theorem named_ite {p : Prop} [Decidable p] {lines lines' : List Line} (h : named lines = [])
    (h' : named lines' = []) : named (if p then lines else lines') = [] := by
  split
  · exact h
  · exact h'

theorem named_texts {α : Type*} (depth : ℕ) (g : α → Str) (l : List α) :
    named (l.map fun a => .text depth (g a)) = [] := by
  induction l with
  | nil => rfl
  | cons a l ih => exact ih

theorem named_flatMap {α : Type*} (g : α → List Line) (l : List α) :
    named (l.flatMap g) = l.flatMap fun a => named (g a) := by
  rw [named, List.filterMap_flatMap]
  rfl

end Named

section Separators

theorem translate_eq (p : Str) :
    Path.translate p '\\' = p.map fun c => if c = '/' then '\\' else c := by
  rw [Path.translate, if_pos rfl]

/-- Separators are none of the characters that mean something in a value. -/
theorem literal_translate {p : Str} : Xml.Literal (Path.translate p '\\') ↔ Xml.Literal p := by
  rw [translate_eq]
  induction p with
  | nil => rfl
  | cons c p ih =>
      rw [List.map_cons, Xml.literal_cons, Xml.literal_cons, ih]
      by_cases hc : c = '/'
      · simp [hc]
      · rw [if_neg hc]

theorem translate_escText (p : Str) :
    Path.translate (Xml.escText p) '\\' = Xml.escText (Path.translate p '\\') := by
  rw [translate_eq, translate_eq, Xml.escText_eq, Xml.escText_eq]
  refine Escape.map_encode ?_ (fun c hc => ?_) p
  · simp [Xml.entities]
  · split
    · simp [Xml.entities]
    · exact hc

theorem attrValue_translate_escText (p : Str) :
    Xml.attrValue (Path.translate (Xml.escText p) '\\') = some (Path.translate p '\\') := by
  rw [translate_escText]
  exact Xml.attrValue_escText _

end Separators

end Ide

end Puremake
