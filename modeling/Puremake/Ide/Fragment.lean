import Puremake.Ide.Markup

/-!
# Fragments of the files of IDEs

A fragment keeps the lines that are written together with what they mean, and with the condition
under which they mean it: names are names, and values are read as they are meant. A value that is
escaped always is. Fragments are put together as the generators write them, and carry the proof that
the reader of the file finds in it what is meant.
-/

namespace Puremake

namespace Ide

structure Value where
  raw : Str
  meaning : Str

namespace Value

def Readable (v : Value) : Prop := Xml.attrValue v.raw = some v.meaning

/-- `premake.esc(s)` -/
def escaped (s : Str) : Value := ⟨Xml.escText s, s⟩

def asIs (s : Str) : Value := ⟨s, s⟩

def fixed (s : String) : Value := asIs s.toList

def append (v w : Value) : Value := ⟨v.raw ++ w.raw, v.meaning ++ w.meaning⟩

instance : Append Value := ⟨append⟩

def join (sep : Value) : List Value → Value
  | [] => fixed ""
  | [v] => v
  | v :: w :: vs => v ++ (sep ++ join sep (w :: vs))

section Readable

variable {s : Str} {v w sep : Value} {vs : List Value}

theorem meaning_append (v w : Value) : (v ++ w).meaning = v.meaning ++ w.meaning := rfl

theorem meaning_asIs (s : Str) : (asIs s).meaning = s := rfl

theorem meaning_fixed (s : String) : (fixed s).meaning = s.toList := rfl

theorem raw_escaped (s : Str) : (escaped s).raw = Xml.escText s := by rw [escaped]

theorem readable_escaped (s : Str) : (escaped s).Readable := by
  rw [Readable, raw_escaped]
  exact Xml.attrValue_escText s

theorem readable_asIs : (asIs s).Readable ↔ Xml.Literal s := Xml.attrValue_eq_self_iff

theorem readable_fixed {s : String} (h : Xml.Literal s.toList) : (fixed s).Readable :=
  readable_asIs.mpr h

theorem Readable.append (hv : v.Readable) (hw : w.Readable) : (v ++ w).Readable :=
  Xml.attrValue_append hv hw

theorem readable_join (hsep : sep.Readable) (h : ∀ v ∈ vs, v.Readable) :
    (join sep vs).Readable := by
  induction vs with
  | nil => rfl
  | cons v vs ih =>
      obtain ⟨hv, hvs⟩ := List.forall_mem_cons.mp h
      cases vs with
      | nil => exact hv
      | cons w vs => exact hv.append (hsep.append (ih hvs))

theorem meaning_join {c : Char} (hsep : sep.meaning = [c]) (vs : List Value) :
    (join sep vs).meaning = concat c (vs.map meaning) := by
  induction vs with
  | nil => rfl
  | cons v vs ih =>
      cases vs with
      | nil => exact (concat_singleton v.meaning).symm
      | cons w vs =>
          rw [join, meaning_append, meaning_append, hsep, ih]
          exact (concat_cons_cons v.meaning w.meaning (vs.map meaning)).symm

end Readable

end Value

structure Fragment where
  lines : ℕ → List Line
  contents : List Xml.Content
  Readable : Prop
  reads : Readable → ∀ lay depth, Reads lay (lines depth) contents

namespace Fragment

def empty : Fragment := ⟨fun _ => [], [], True, fun _ lay _ => reads_nil lay⟩

def append (x y : Fragment) : Fragment where
  lines depth := x.lines depth ++ y.lines depth
  contents := x.contents ++ y.contents
  Readable := x.Readable ∧ y.Readable
  reads h lay depth := (x.reads h.1 lay depth).append (y.reads h.2 lay depth)

instance : Append Fragment := ⟨append⟩

def guard (p : Prop) [Decidable p] (x : Fragment) : Fragment := if p then x else empty

def each {α : Type*} (l : List α) (g : α → Fragment) : Fragment where
  lines depth := l.flatMap fun a => (g a).lines depth
  contents := l.flatMap fun a => (g a).contents
  Readable := ∀ a ∈ l, (g a).Readable
  reads h lay depth := reads_flatMap fun a ha => (g a).reads (h a ha) lay depth

def raws (l : List (String × Value)) : List (String × Str) := l.map fun a => (a.1, a.2.raw)

def meanings (l : List (String × Value)) : List (String × Str) := l.map fun a => (a.1, a.2.meaning)

structure Tagged (name : String) (l : List (String × Value)) : Prop where
  name : Xml.isName name.toList = true
  keys : Xml.areKeys (l.map fun a => a.1.toList) = true
  values : ∀ a ∈ l, a.2.Readable

theorem Tagged.spells {name : String} {l : List (String × Value)} (h : Tagged name l) :
    Xml.Spells (attrs (raws l)) (attrs (meanings l)) := by
  have hfst : (attrs (raws l)).map Prod.fst = l.map fun a => a.1.toList := by
    simp [attrs, raws]
  refine ⟨hfst.symm ▸ h.keys, ?_⟩
  rw [attrs, raws, List.map_map, attrs, meanings, List.map_map, List.forall₂_map_left_iff,
    List.forall₂_map_right_iff, List.forall₂_same]
  exact fun a ha => ⟨rfl, h.values a ha⟩

theorem tagged_nil {name : String} (h : Xml.isName name.toList) : Tagged name [] :=
  ⟨h, rfl, fun _ ha => absurd ha List.not_mem_nil⟩

theorem tagged_single {name key : String} {v : Value} (h : Xml.isName name.toList)
    (hkey : Xml.areKeys [key.toList]) (hv : v.Readable) : Tagged name [(key, v)] :=
  ⟨h, hkey, List.forall_mem_singleton.mpr hv⟩

def single (name : String) (l : List (String × Value)) : Fragment where
  lines depth := [spaced depth 0 (Ide.single name (raws l) true)]
  contents := [element name (meanings l) []]
  Readable := Tagged name l
  reads h _ _ := reads_single h.name h.spells true

def block (name : String) (l : List (String × Value)) (x : Fragment) : Fragment where
  lines depth := spaced depth 0 (opening name (raws l)) ::
    (x.lines (depth + 1) ++ [spaced depth 0 (closing name)])
  contents := [element name (meanings l) x.contents]
  Readable := Tagged name l ∧ x.Readable
  reads h lay depth := reads_element h.1.name h.1.spells (x.reads h.2 lay (depth + 1))

def instruction (s : String) : Fragment where
  lines depth := [spaced depth 0 ('<' :: '?' :: s.toList ++ ['?', '>'])]
  contents := []
  Readable := '?' ∉ s.toList
  reads h _ _ := reads_spaced (Xml.brings_instruction h)

def blank : Fragment where
  lines depth := [spaced depth 0 []]
  contents := []
  Readable := True
  reads _ _ _ := reads_spaced Xml.brings_nil

section Parts

variable {α : Type*} {x : Fragment}

theorem lines_append (x y : Fragment) (depth : ℕ) :
    (x ++ y).lines depth = x.lines depth ++ y.lines depth := rfl

theorem lines_guard {p : Prop} [Decidable p] (depth : ℕ) :
    (guard p x).lines depth = if p then x.lines depth else [] :=
  apply_ite (fun y => y.lines depth) p x empty

theorem lines_each (l : List α) (g : α → Fragment) (depth : ℕ) :
    (each l g).lines depth = l.flatMap fun a => (g a).lines depth := rfl

theorem lines_block (name : String) (l : List (String × Value)) (x : Fragment) (depth : ℕ) :
    (block name l x).lines depth = spaced depth 0 (opening name (raws l)) ::
      (x.lines (depth + 1) ++ [spaced depth 0 (closing name)]) := rfl

theorem contents_append (x y : Fragment) : (x ++ y).contents = x.contents ++ y.contents := rfl

theorem contents_each (l : List α) (g : α → Fragment) :
    (each l g).contents = l.flatMap fun a => (g a).contents := rfl

theorem contents_guard {p : Prop} [Decidable p] :
    (guard p x).contents = if p then x.contents else [] := apply_ite contents p x empty

theorem contents_single (name : String) (l : List (String × Value)) :
    (single name l).contents = [element name (meanings l) []] := rfl

theorem contents_block (name : String) (l : List (String × Value)) (x : Fragment) :
    (block name l x).contents = [element name (meanings l) x.contents] := rfl

theorem readable_guard {p : Prop} [Decidable p] (h : p → x.Readable) : (guard p x).Readable := by
  rw [guard]
  split
  · rename_i hp
    exact h hp
  · trivial

end Parts

theorem read_print {x : Fragment} {name : String} {l : List (String × Str)}
    {cs : List Xml.Content} (lay : Layout) (depth : ℕ)
    (hcontents : x.contents = [element name l cs]) (h : x.Readable) :
    Xml.read (lay.print (x.lines depth)) = some (element name l cs) := by
  have hreads := x.reads h lay depth
  rw [hcontents] at hreads
  exact Xml.read_of_brings hreads

end Fragment

end Ide

end Puremake
