import Puremake.Lua.Table
import Mathlib.Data.List.TakeWhile
import Mathlib.Data.List.Induction

/-!
# The words of the command line

A word that begins with a slash or with two dashes is an option, and what follows its first
equals sign is the value. Of the other words the first is the action, and the rest are its
arguments. Every word can be read in one way only, so that the command line says what is in
`_OPTIONS`, `_ACTION` and `_ARGS`, in whatever order the words stand.
-/

namespace Puremake

/-- What the words of a command line leave in `_OPTIONS`, `_ACTION` and `_ARGS`. -/
structure Cmdline where
  options : List (Str × Str)
  action : Option Str
  args : List Str
  deriving DecidableEq, Repr

namespace Cmdline

def IsOption (v : Str) : Prop :=
  Str.startswith v "/".toList ∨ Str.startswith v "--".toList

instance : DecidablePred IsOption := fun _ => instDecidableOr

/-- The name and the value of what follows the slash or the dashes. -/
def splitOption (o : Str) : Str × Str :=
  match o.dropWhile (· ≠ '=') with
  | [] => (o, [])
  | _ :: s => (o.takeWhile (· ≠ '='), s)

/-- A round of the loop over `_ARGV`. -/
def step (c : Cmdline) (v : Str) : Cmdline :=
  if IsOption v then
    let o := if Str.startswith v "/".toList then v.drop 1 else v.drop 2
    let (o, s) := splitOption o
    { c with options := assign o s c.options }
  else
    match c.action with
    | none => { c with action := some v }
    | some _ => { c with args := c.args ++ [v] }

/-- The loop over `_ARGV`. -/
def parse (argv : List Str) : Cmdline := argv.foldl step ⟨[], none, []⟩

inductive Lead
  | slash
  | dashes
  deriving DecidableEq, Repr

def Lead.text : Lead → Str
  | .slash => "/".toList
  | .dashes => "--".toList

/-- A word of the command line: an option, perhaps with a value, or something else. -/
inductive Word
  | option (lead : Lead) (name : Str) (value : Option Str) (plain : '=' ∉ name)
  | other (v : Str) (h : ¬ IsOption v)

namespace Word

def spell (name : Str) : Option Str → Str
  | none => name
  | some value => name ++ '=' :: value

def text : Word → Str
  | option lead name value _ => lead.text ++ spell name value
  | other v _ => v

/-- The name and the value of an option. A value that is missing is empty. -/
def entry? : Word → Option (Str × Str)
  | option _ name value _ => some (name, value.getD [])
  | other _ _ => none

def valueOf (name : Str) (w : Word) : Option Str :=
  (w.entry?.filter fun e => e.1 = name).map Prod.snd

def other? : Word → Option Str
  | option _ _ _ _ => none
  | other v _ => some v

end Word

section Split

variable {name value : Str}

theorem splitOption_of_notMem (h : '=' ∉ name) : splitOption name = (name, []) := by
  have hdrop : name.dropWhile (· ≠ '=') = [] := by
    rw [List.dropWhile_eq_nil_iff]
    intro c hc
    exact decide_eq_true fun heq => h (heq ▸ hc)
  rw [splitOption, hdrop]

theorem splitOption_append (h : '=' ∉ name) :
    splitOption (name ++ '=' :: value) = (name, value) := by
  have hall : ∀ c ∈ name, (decide (c ≠ '=')) = true := fun c hc =>
    decide_eq_true fun heq => h (heq ▸ hc)
  have hdrop : (name ++ '=' :: value).dropWhile (· ≠ '=') = '=' :: value := by
    rw [List.dropWhile_append_of_pos hall]
    rfl
  have htake : (name ++ '=' :: value).takeWhile (· ≠ '=') = name := by
    rw [List.takeWhile_append_of_pos hall]
    exact List.append_nil name
  rw [splitOption, hdrop, htake]

theorem splitOption_spell (h : '=' ∉ name) (value : Option Str) :
    splitOption (Word.spell name value) = (name, value.getD []) := by
  cases value with
  | none => exact splitOption_of_notMem h
  | some value => exact splitOption_append h

/-- What follows the slash or the dashes is a name, or a name with a value. -/
theorem exists_spell (o : Str) : ∃ name value, '=' ∉ name ∧ Word.spell name value = o := by
  by_cases h : '=' ∈ o
  · obtain ⟨name, value, heq, hname⟩ := List.eq_append_cons_of_mem h
    exact ⟨name, some value, hname, heq.symm⟩
  · exact ⟨o, none, h, rfl⟩

theorem mem_spell_iff (h : '=' ∉ name) (value : Option Str) :
    '=' ∈ Word.spell name value ↔ value.isSome := by
  cases value with
  | none => exact iff_of_false h Bool.false_ne_true
  | some value => exact iff_of_true (List.mem_append_right _ List.mem_cons_self) rfl

theorem spell_inj {name' : Str} (h : '=' ∉ name) (h' : '=' ∉ name') {value value' : Option Str}
    (heq : Word.spell name value = Word.spell name' value') : name = name' ∧ value = value' := by
  have hsplit : (name, value.getD []) = (name', value'.getD []) := by
    rw [← splitOption_spell h value, heq, splitOption_spell h' value']
  have hsome : value.isSome ↔ value'.isSome := by
    rw [← mem_spell_iff h, heq, mem_spell_iff h']
  obtain ⟨hname, hvalue⟩ := Prod.mk.inj hsplit
  refine ⟨hname, ?_⟩
  cases value with
  | none =>
      cases value' with
      | none => rfl
      | some w => exact absurd (hsome.mpr rfl) Bool.false_ne_true
  | some v =>
      cases value' with
      | none => exact absurd (hsome.mp rfl) Bool.false_ne_true
      | some w => exact congrArg some hvalue

end Split

section Words

theorem isOption_lead (lead : Lead) (o : Str) : IsOption (lead.text ++ o) := by
  cases lead with
  | slash => exact .inl rfl
  | dashes => exact .inr rfl

theorem exists_lead {v : Str} (h : IsOption v) : ∃ (lead : Lead) (o : Str), lead.text ++ o = v := by
  rcases h with h | h
  · obtain ⟨o, heq⟩ := Str.startswith_iff.mp h
    exact ⟨.slash, o, heq⟩
  · obtain ⟨o, heq⟩ := Str.startswith_iff.mp h
    exact ⟨.dashes, o, heq⟩

theorem lead_inj {lead lead' : Lead} {o o' : Str} (h : lead.text ++ o = lead'.text ++ o') :
    lead = lead' ∧ o = o' := by
  cases lead with
  | slash =>
      cases lead' with
      | slash => exact ⟨rfl, (List.cons.inj h).2⟩
      | dashes => exact absurd (List.cons.inj h).1 (by decide)
  | dashes =>
      cases lead' with
      | slash => exact absurd (List.cons.inj h).1 (by decide)
      | dashes => exact ⟨rfl, (List.cons.inj (List.cons.inj h).2).2⟩

theorem text_surjective : Function.Surjective Word.text := by
  intro v
  by_cases h : IsOption v
  · obtain ⟨lead, o, rfl⟩ := exists_lead h
    obtain ⟨name, value, hname, rfl⟩ := exists_spell o
    exact ⟨.option lead name value hname, rfl⟩
  · exact ⟨.other v h, rfl⟩

theorem text_injective : Function.Injective Word.text := by
  intro w w' heq
  cases w with
  | option lead name value h =>
      cases w' with
      | option lead' name' value' h' =>
          obtain ⟨rfl, hspell⟩ := lead_inj heq
          obtain ⟨rfl, rfl⟩ := spell_inj h h' hspell
          rfl
      | other v' h' =>
          obtain rfl : lead.text ++ Word.spell name value = v' := heq
          exact absurd (isOption_lead lead _) h'
  | other v h =>
      cases w' with
      | option lead' name' value' h' =>
          obtain rfl : v = lead'.text ++ Word.spell name' value' := heq
          exact absurd (isOption_lead lead' _) h
      | other v' h' =>
          obtain rfl : v = v' := heq
          rfl

theorem step_option (c : Cmdline) (lead : Lead) {name : Str} (value : Option Str)
    (h : '=' ∉ name) : c.step (Word.option lead name value h).text =
      { c with options := assign name (value.getD []) c.options } := by
  have hdrop : c.step (lead.text ++ Word.spell name value) =
      let e := splitOption (Word.spell name value)
      { c with options := assign e.1 e.2 c.options } := by
    cases lead with
    | slash => exact if_pos (isOption_lead .slash _)
    | dashes => exact if_pos (isOption_lead .dashes _)
  rw [Word.text, hdrop, splitOption_spell h]

end Words

section Reads

/-- The words say what is in the globals: the value of an option is the last one that a word
gives it, the action is the first of the other words, and the arguments are the rest of them. -/
structure Reads (words : List Word) (c : Cmdline) : Prop where
  options : ∀ name, c.options.lookup name = (words.filterMap (Word.valueOf name)).getLast?
  once : (c.options.map Prod.fst).Nodup
  positional : c.action.toList ++ c.args = words.filterMap Word.other?
  action : c.action = none → c.args = []

theorem reads_nil : Reads [] ⟨[], none, []⟩ := ⟨fun _ => rfl, .nil, rfl, fun _ => rfl⟩

theorem Reads.step {words : List Word} {c : Cmdline} (h : Reads words c) (w : Word) :
    Reads (words ++ [w]) (c.step w.text) := by
  cases w with
  | option lead name value hname =>
      rw [step_option]
      constructor
      · intro key
        show (assign name (value.getD []) c.options).lookup key = _
        rw [List.filterMap_append]
        by_cases hkey : key = name
        · subst hkey
          simp [Word.valueOf, Word.entry?]
        · rw [lookup_assign_of_ne hkey, h.options key]
          simp [Word.valueOf, Word.entry?, Option.filter, Ne.symm hkey]
      · exact nodup_keys_assign h.once
      · rw [List.filterMap_append, ← h.positional]
        exact (List.append_nil _).symm
      · exact h.action
  | other v hv =>
      have hstep : c.step (Word.other v hv).text = match c.action with
          | none => { c with action := some v }
          | some _ => { c with args := c.args ++ [v] } := if_neg hv
      have hoptions : (c.step (Word.other v hv).text).options = c.options := by
        rw [hstep]
        cases c.action <;> rfl
      constructor
      · intro key
        rw [hoptions, h.options key, List.filterMap_append]
        simp [Word.valueOf, Word.entry?]
      · exact hoptions ▸ h.once
      · rw [List.filterMap_append, ← h.positional, hstep]
        cases haction : c.action with
        | none => simp [h.action haction, Word.other?]
        | some a => simp [Word.other?]
      · rw [hstep]
        cases haction : c.action with
        | none => exact fun heq => absurd heq (Option.some_ne_none v)
        | some a => exact fun heq : some a = none => absurd heq (Option.some_ne_none a)

theorem reads_parse (words : List Word) : Reads words (parse (words.map Word.text)) := by
  induction words using List.reverseRecOn with
  | nil => exact reads_nil
  | append_singleton words w ih =>
      rw [List.map_append, parse, List.foldl_append]
      exact ih.step w

/-- The words of every command line can be read in one way, and they say what is in the
globals. -/
theorem existsUnique_reads (argv : List Str) :
    ∃ words : List Word, words.map Word.text = argv ∧ Reads words (parse argv) ∧
      ∀ words' : List Word, words'.map Word.text = argv → words' = words := by
  obtain ⟨words, rfl⟩ := List.map_surjective_iff.mpr text_surjective argv
  exact ⟨words, rfl, reads_parse words, fun words' heq => List.map_injective_iff.mpr
    text_injective heq⟩

example : parse ["--os=linux".toList, "gmake".toList, "/cc=gcc=4".toList, "all".toList,
    "--os=bsd".toList] = ⟨[("os".toList, "bsd".toList), ("cc".toList, "gcc=4".toList)],
      some "gmake".toList, ["all".toList]⟩ := by decide

end Reads

end Cmdline

end Puremake
