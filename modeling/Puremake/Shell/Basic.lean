import Puremake.Lua.Str
import Mathlib.Data.List.Infix

/-!
# Scripts of commands and tests

A script is a sequence of commands, some of them behind a test that compares a variable with
a value. A shell that is given the script runs the commands one after the other, and those
behind a test only when the variable has the value. What a shell does with other texts is
left open: `Shell` has predicates for the texts that are complete commands, and for those
that stand for themselves between double quotes. `Shell.lineByLine` is the shell for which
these are single lines.
-/

namespace Puremake

namespace Script

inductive Item
  | command (text : Str)
  | block (value : Str) (body : List Str)

def testOpen : Str := "if [ \"$\x7b".toList

def testEqual : Str := "\x7d\" = \"".toList

def testStop : Str := "\" ]; then".toList

def testStart (var : Str) : Str := testOpen ++ var ++ testEqual

def testLine (var value : Str) : Str := testStart var ++ (value ++ testStop)

def endLine : Str := "fi".toList

def Item.lines (var : Str) : Item → List Str
  | .command text => [text]
  | .block value body => testLine var value :: (body ++ [endLine])

/-- The commands of a part that are run when the variable has a value. -/
def Item.ran (config : Str) : Item → List Str
  | .command text => [text]
  | .block value body => if value = config then body else []

def Item.commands : Item → List Str
  | .command text => [text]
  | .block _ body => body

/-- A value without a character that has a meaning between double quotes. -/
def PlainValue (value : Str) : Prop := ∀ c ∈ value, c ∉ ['"', '$', '\x60', '\\', '\n']

instance (value : Str) : Decidable (PlainValue value) := List.decidableBAll _ value

/-- A part with a test that a shell reads as it is written: the value stands for itself, and
there is a command behind the test. -/
def Item.WellFormed (Literal : Str → Prop) : Item → Prop
  | .command _ => True
  | .block value body => Literal value ∧ body ≠ []

end Script

/-- A shell, for scripts that test one variable. A complete command is one that is run for
itself and leaves the shell and the variable as they are, a literal value is one that stands
for itself between double quotes. -/
structure Shell (var : Str) where
  Complete : Str → Prop
  Literal : Str → Prop
  literal_of_plainValue : ∀ value, Script.PlainValue value → Literal value
  run : Str → Str → List Str
  run_script : ∀ (config : Str) (items : List Script.Item),
    (∀ item ∈ items, item.WellFormed Literal ∧ ∀ text ∈ item.commands, Complete text) →
    run config (concat '\n' (items.flatMap (Script.Item.lines var))) =
      items.flatMap (Script.Item.ran config)

namespace Shell

open Script

section LineByLine

variable {var config : Str}

def readTest (var line : Str) : Option Str :=
  let rest := line.drop (testStart var).length
  if testStart var <+: line ∧ testStop <:+ rest then
    some (rest.take (rest.length - testStop.length))
  else none

/-- The commands that are run line by line, where a line may be skipped. -/
def runLines (var config : Str) : Bool → List Str → List Str
  | _, [] => []
  | active, line :: lines =>
      match readTest var line with
      | some value => runLines var config (value = config) lines
      | none =>
          if line = endLine then runLines var config true lines
          else if active ∧ line ≠ [] then line :: runLines var config active lines
          else runLines var config active lines

def IsCommandLine (var line : Str) : Prop :=
  '\n' ∉ line ∧ line ≠ [] ∧ line ≠ endLine ∧ readTest var line = none

instance (line : Str) : Decidable (IsCommandLine var line) :=
  inferInstanceAs (Decidable (_ ∧ _ ∧ _ ∧ _))

theorem readTest_testLine (var value : Str) : readTest var (testLine var value) = some value := by
  rw [readTest, testLine, List.drop_left]
  simp

theorem length_testStart (var : Str) : (testStart var).length = var.length + 14 := by
  have hopen : testOpen.length = 8 := by decide
  have hequal : testEqual.length = 6 := by decide
  rw [testStart, List.length_append, List.length_append, hopen, hequal]
  omega

theorem readTest_of_length_lt {line : Str} (h : line.length < (testStart var).length) :
    readTest var line = none :=
  if_neg fun hc => absurd hc.1.length_le (by omega)

theorem readTest_endLine (var : Str) : readTest var endLine = none := by
  apply readTest_of_length_lt
  have h : endLine.length = 2 := by decide
  rw [length_testStart]
  omega

theorem readTest_nil (var : Str) : readTest var [] = none := by
  apply readTest_of_length_lt
  rw [length_testStart, List.length_nil]
  omega

theorem runLines_nil_line (var config : Str) : runLines var config true [[]] = [] := by
  have hne : ([] : Str) ≠ endLine := by decide
  simp only [runLines, readTest_nil, hne, if_false, ne_eq, not_true_eq_false, and_false]

theorem notMem_testLine {c : Char} (hc : c ∉ testOpen ++ testEqual ++ testStop) (hvar : c ∉ var)
    {value : Str} (hvalue : c ∉ value) : c ∉ testLine var value := by
  rw [List.mem_append, List.mem_append, not_or, not_or] at hc
  simp [testLine, testStart, hc, hvar, hvalue]

theorem runLines_commands {body : List Str} (hbody : ∀ text ∈ body, IsCommandLine var text)
    (active : Bool) (rest : List Str) :
    runLines var config active (body ++ rest) =
      (if active then body else []) ++ runLines var config active rest := by
  induction body with
  | nil => simp
  | cons text body ih =>
      obtain ⟨-, hne, hend, htest⟩ := hbody text List.mem_cons_self
      rw [List.cons_append, runLines, htest]
      simp only [hend, if_false, hne, ne_eq, not_false_eq_true, and_true]
      rw [ih fun t ht => hbody t (List.mem_cons_of_mem _ ht)]
      cases active <;> simp

/-- A part of a script is run as a whole, and leaves the shell active. -/
theorem runLines_item {item : Item} (hitem : ∀ text ∈ item.commands, IsCommandLine var text)
    (rest : List Str) :
    runLines var config true (item.lines var ++ rest) =
      item.ran config ++ runLines var config true rest := by
  cases item with
  | command text =>
      exact @runLines_commands var config [text] hitem true rest
  | block value body =>
      have hbody : ∀ text ∈ body, IsCommandLine var text := hitem
      rw [Item.lines, List.cons_append, runLines, readTest_testLine]
      simp only [List.append_assoc, List.singleton_append]
      rw [runLines_commands hbody, runLines, readTest_endLine]
      simp [Item.ran]

theorem runLines_script {items : List Item}
    (hitems : ∀ item ∈ items, ∀ text ∈ item.commands, IsCommandLine var text) :
    runLines var config true (items.flatMap (Item.lines var)) =
      items.flatMap (Item.ran config) := by
  induction items with
  | nil => rfl
  | cons item items ih =>
      rw [List.flatMap_cons, List.flatMap_cons, runLines_item (hitems item List.mem_cons_self),
        ih fun i hi => hitems i (List.mem_cons_of_mem _ hi)]

theorem newline_notMem_lines (hvar : '\n' ∉ var) {item : Item}
    (hitem : item.WellFormed fun value => '\n' ∉ value)
    (hcommands : ∀ text ∈ item.commands, IsCommandLine var text) :
    ∀ line ∈ item.lines var, '\n' ∉ line := by
  cases item with
  | command text => exact fun line hline => (hcommands line hline).1
  | block value body =>
      intro line hline
      rcases List.mem_cons.mp hline with rfl | hline
      · exact notMem_testLine (by decide) hvar hitem.1
      · rcases List.mem_append.mp hline with hline | hline
        · exact (hcommands line hline).1
        · rw [List.mem_singleton.mp hline]
          decide

/-- The shell that reads a script line by line: a complete command is a line that is neither
empty nor part of a test. -/
def lineByLine (var : Str) (hvar : '\n' ∉ var) : Shell var where
  Complete := IsCommandLine var
  Literal value := '\n' ∉ value
  literal_of_plainValue value h hmem := h _ hmem (by decide)
  run config script := runLines var config true (pieces (fun c => c = '\n') script)
  run_script config items hitems := by
    have hscript : runLines var config true (items.flatMap (Item.lines var)) = _ :=
      runLines_script fun item hitem => (hitems item hitem).2
    by_cases hnil : items.flatMap (Item.lines var) = []
    · rw [← hscript, hnil]
      exact runLines_nil_line var config
    · rw [pieces_concat (by simp) hnil, hscript]
      intro line hline c hc
      obtain ⟨item, hitem, hline⟩ := List.mem_flatMap.mp hline
      have hmem := newline_notMem_lines hvar (hitems item hitem).1 (hitems item hitem).2 line hline
      simpa using fun h : c = '\n' => hmem (h ▸ hc)

end LineByLine

end Shell

end Puremake
