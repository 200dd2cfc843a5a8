import Puremake.Ide.Lines
import Puremake.Xml.Reader

/-!
# Lines with tags

Some generators write whole elements with `_p`: a line with a start tag, the lines for what is in
the element, and a line with the end tag. The layout of a line is blank, so what the lines mean is
put together from the elements alone.
-/

namespace Puremake

namespace Ide

/-- What `_p` writes around the text of a line. -/
structure Layout where
  indent : Str
  eol : Str
  blank_indent : indent.all Xml.blank = true
  blank_eol : eol.all Xml.blank = true

/-- What `_p` writes for some lines. -/
def Layout.print (lay : Layout) (lines : List Line) : Str :=
  lines.flatMap (Line.print lay.indent lay.eol)

def attrs (l : List (String × Str)) : List (Str × Str) := l.map fun a => (a.1.toList, a.2)

def opening (name : String) (l : List (String × Str)) : Str := Xml.startTag name.toList (attrs l)

def closing (name : String) : Str := Xml.stopTag name.toList

/-- The text of the tag of an empty element, with `"/>"` behind the last value or with `" />"`. -/
def single (name : String) (l : List (String × Str)) (space : Bool) : Str :=
  Xml.emptyTag name.toList (attrs l) space

def spaced (depth spaces : ℕ) (s : Str) : Line := .text depth (List.replicate spaces ' ' ++ s)

def element (name : String) (l : List (String × Str)) (cs : List Xml.Content) : Xml.Content :=
  .element name.toList (attrs l) cs

/-- An element for each value of a list, with the value in its only attribute. -/
def each (name key : String) (values : List Str) : List Xml.Content :=
  values.map fun v => element name [(key, v)] []

def content (v : Str) : List Xml.Content :=
  if v.all fun c => c ∈ [' ', '\t'] then [] else [.text v]

/-- What the lines bring to the element that is open around them. -/
def Reads (lay : Layout) (lines : List Line) (cs : List Xml.Content) : Prop :=
  Xml.Brings (lay.print lines) cs

section Values

variable {s t v w : Str}

theorem attrValue_literal (h : Xml.Literal s) : Xml.attrValue s = some s :=
  Xml.attrValue_eq_self_iff.mpr h

theorem literal_append : Xml.Literal (s ++ t) ↔ Xml.Literal s ∧ Xml.Literal t := by
  induction s with
  | nil => exact ⟨fun h => ⟨fun _ _ => List.not_mem_nil, h⟩, fun h => h.2⟩
  | cons c s ih =>
      rw [List.cons_append, Xml.literal_cons, Xml.literal_cons, ih]
      exact and_assoc.symm

theorem attrValue_joined {c : Char} (hc : Xml.Literal [c]) (hs : Xml.attrValue s = some v)
    (ht : Xml.attrValue t = some w) : Xml.attrValue (s ++ c :: t) = some (v ++ c :: w) := by
  have h := Xml.attrValue_append (attrValue_literal hc) ht
  exact Xml.attrValue_append hs h

theorem attrValue_concat {c : Char} (hc : Xml.Literal [c]) {raws vs : List Str}
    (h : List.Forall₂ (fun raw v => Xml.attrValue raw = some v) raws vs) :
    Xml.attrValue (concat c raws) = some (concat c vs) := by
  induction h with
  | nil => rfl
  | @cons raw v raws vs hv h ih =>
      cases h with
      | nil => simpa using hv
      | cons _ _ =>
          rw [concat_cons_cons, concat_cons_cons]
          exact attrValue_joined hc hv ih

theorem attrValue_concat_escText {c : Char} (hc : Xml.Literal [c]) (vs : List Str) :
    Xml.attrValue (concat c (vs.map Xml.escText)) = some (concat c vs) := by
  refine attrValue_concat hc (List.forall₂_map_left_iff.mpr (List.forall₂_same.mpr ?_))
  exact fun v _ => Xml.attrValue_escText v

theorem lt_notMem_escText (v : Str) : '<' ∉ Xml.escText v :=
  Xml.notMem_escText (by simp [Xml.entities]) (by simp [Xml.entities]) v

theorem all_blank_escText (v : Str) :
    (Xml.escText v).all Xml.blank = v.all fun c => decide (c ∈ [' ', '\t']) := by
  have hcode : ∀ c, (Escape.code Xml.entities.entries c).all Xml.blank =
      decide (c ∈ [' ', '\t']) := by
    intro c
    by_cases hc : c ∈ Xml.entities.entries.map Prod.fst
    · obtain ⟨e, he, rfl, hcode⟩ := Escape.exists_code_eq hc
      rw [hcode]
      exact (by decide : ∀ e ∈ Xml.entities.entries, e.2.all Xml.blank =
        decide (e.1 ∈ [' ', '\t'])) e he
    · have hne : c ≠ '\r' ∧ c ≠ '\n' := by
        constructor <;> rintro rfl <;> exact hc (by simp [Xml.entities])
      rw [Escape.code_of_notMem hc]
      simp [Xml.blank, hne.1, hne.2]
  rw [Xml.escText_eq, Escape.encode, List.all_flatMap]
  exact congrArg v.all (funext hcode)

end Values

section Spells

theorem spells_nil : Xml.Spells (attrs []) (attrs []) := ⟨by decide, List.Forall₂.nil⟩

theorem spells_single {raw v : Str} (key : String) (hkey : Xml.isName key.toList)
    (hv : Xml.attrValue raw = some v) : Xml.Spells (attrs [(key, raw)]) (attrs [(key, v)]) := by
  refine ⟨Xml.areKeys_iff.mpr ⟨?_, ?_⟩, ?_⟩
  · simpa [attrs] using hkey
  · simp [attrs]
  · simpa [attrs] using hv

end Spells

section Reads

variable {lay : Layout} {lines lines' : List Line} {cs ds : List Xml.Content}
  {name : String} {raws l : List (String × Str)} {depth spaces depth' spaces' : ℕ}

theorem print_append (lay : Layout) (lines lines' : List Line) :
    lay.print (lines ++ lines') = lay.print lines ++ lay.print lines' := List.flatMap_append

theorem print_cons (lay : Layout) (line : Line) (lines : List Line) :
    lay.print (line :: lines) = line.print lay.indent lay.eol ++ lay.print lines :=
  List.flatMap_cons

theorem reads_nil (lay : Layout) : Reads lay [] [] := Xml.brings_nil

theorem Reads.append (h : Reads lay lines cs) (h' : Reads lay lines' ds) :
    Reads lay (lines ++ lines') (cs ++ ds) := by
  rw [Reads, print_append]
  exact Xml.Brings.append h h'

theorem reads_flatMap {α : Type*} {as : List α} {g : α → List Line} {k : α → List Xml.Content}
    (h : ∀ a ∈ as, Reads lay (g a) (k a)) : Reads lay (as.flatMap g) (as.flatMap k) := by
  have hprint : lay.print (as.flatMap g) = as.flatMap fun a => lay.print (g a) :=
    List.flatMap_assoc
  rw [Reads, hprint]
  exact Xml.brings_flatMap h

theorem reads_map {α : Type*} {as : List α} {g : α → Line} {k : α → Xml.Content}
    (h : ∀ a ∈ as, Reads lay [g a] [k a]) : Reads lay (as.map g) (as.map k) := by
  rw [List.map_eq_flatMap, List.map_eq_flatMap]
  exact reads_flatMap h

theorem reads_ite {p : Prop} [Decidable p] (h : p → Reads lay lines cs)
    (h' : ¬ p → Reads lay lines' ds) :
    Reads lay (if p then lines else lines') (if p then cs else ds) := by
  split
  · rename_i hp
    exact h hp
  · rename_i hp
    exact h' hp

def lead (lay : Layout) (depth spaces : ℕ) : Str :=
  (List.replicate depth lay.indent).flatten ++ List.replicate spaces ' '

theorem all_blank_lead (lay : Layout) (depth spaces : ℕ) :
    (lead lay depth spaces).all Xml.blank = true := by
  rw [lead, List.all_append, Bool.and_eq_true, List.all_eq_true, List.all_eq_true]
  constructor
  · intro c hc
    obtain ⟨s, hs, hmem⟩ := List.mem_flatten.mp hc
    rw [List.eq_of_mem_replicate hs] at hmem
    exact List.all_eq_true.mp lay.blank_indent c hmem
  · intro c hc
    rw [List.eq_of_mem_replicate hc]
    rfl

theorem print_spaced (lay : Layout) (depth spaces : ℕ) (s : Str) :
    (spaced depth spaces s).print lay.indent lay.eol = lead lay depth spaces ++ s ++ lay.eol := by
  simp only [spaced, Line.print, lead, List.append_assoc]

theorem reads_spaced {s : Str} (h : Xml.Brings s cs) : Reads lay [spaced depth spaces s] cs := by
  have hlead := Xml.brings_blank (all_blank_lead lay depth spaces)
  have heol := Xml.brings_blank lay.blank_eol
  rw [Reads, print_cons, print_spaced, Layout.print, List.flatMap_nil, List.append_nil]
  simpa using (hlead.append h).append heol

/-- A line for an element with one value, as its text stands in the source. -/
theorem spaced_single {tag key front : String}
    (h : front.toList = '<' :: tag.toList ++ ' ' :: key.toList ++ ['=']) (v : Str) :
    spaced depth 0 (single tag [(key, v)] true) = .text depth (quoted front v " />") := by
  simp [spaced, single, Xml.emptyTag, Xml.written, attrs, quoted, h]

theorem reads_single (hname : Xml.isName name.toList) (h : Xml.Spells (attrs raws) (attrs l))
    (space : Bool) : Reads lay [spaced depth spaces (single name raws space)] [element name l []] :=
  reads_spaced (Xml.brings_emptyTag h hname space)

theorem reads_element (hname : Xml.isName name.toList) (h : Xml.Spells (attrs raws) (attrs l))
    (hlines : Reads lay lines cs) :
    Reads lay (spaced depth spaces (opening name raws) ::
      (lines ++ [spaced depth' spaces' (closing name)])) [element name l cs] := by
  have hlead := Xml.brings_blank (all_blank_lead lay depth spaces)
  have hlead' := Xml.brings_blank (all_blank_lead lay depth' spaces')
  have heol := Xml.brings_blank lay.blank_eol
  have helement := ((heol.append hlines).append hlead').element h hname
  rw [Reads, print_cons, print_append, print_cons, print_spaced, print_spaced]
  have h' := (hlead.append helement).append heol
  simpa [opening, closing, element, Layout.print] using h'

theorem reads_text (hname : Xml.isName name.toList) (h : Xml.Spells (attrs raws) (attrs l))
    (v : Str) : Reads lay [spaced depth spaces
      (opening name raws ++ Xml.escText v ++ closing name)] [element name l (content v)] := by
  have hv := Xml.textValue_of_attrValue (Xml.attrValue_escText v)
  have hbrings := Xml.brings_text hv (lt_notMem_escText v) h hname
  rw [all_blank_escText] at hbrings
  exact reads_spaced hbrings

end Reads

end Ide

end Puremake
