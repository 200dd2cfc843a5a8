import Puremake.Xml.Attribute

/-!
# Documents

A document is read character by character, with a state that knows where in the markup it is, which
element is open and which ones around it. Between the tags of an element there are other elements
and text; text that is blank as it is written is only layout and is left out. The reader takes
elements, text, and instructions between question marks, of which an XML declaration is one; in a
start tag each name, its equals sign and its value stand together, and no name stands twice. All
else is malformed.

What a piece of a document means is said by `Brings`: between two tags it brings some content to
the element that is open. Pieces can be put one after the other, and a piece between a start tag
and the end tag brings one element, so a document is read along the way in which it is written.
-/

namespace Puremake

namespace Xml

inductive Content
  | text (s : Str)
  | element (name : Str) (attributes : List (Str × Str)) (contents : List Content)

def Content.isNamed (name : Str) : Content → Bool
  | .text _ => false
  | .element n _ _ => n = name

def Content.named (name : Str) : Content → List Content
  | .text _ => []
  | .element _ _ contents => contents.filter (Content.isNamed name)

def Content.attribute (key : Str) : Content → Option Str
  | .text _ => none
  | .element _ attributes _ => attributes.lookup key

/-- The start tag that is read: the name and the attributes so far. -/
structure Tag where
  name : Str
  attributes : List (Str × Str)

structure Frame extends Tag where
  contents : List Content

/-- Where the reader is: in the contents, with the text since the last tag, or in the markup. -/
inductive Mode
  | data (raw : Str)
  | markup
  | instruction (mark : Bool)
  | stop (name : Str)
  | start (name : Str)
  | attributes (tag : Tag)
  | key (tag : Tag) (name : Str)
  | equals (tag : Tag) (name : Str)
  | value (tag : Tag) (name raw : Str)
  | valued (tag : Tag)
  | slash (tag : Tag)

/-- The state of the reader, with the elements around the open one from the inside to the
outside. -/
structure Reader where
  mode : Mode
  frame : Frame
  outer : List Frame

def blank (c : Char) : Bool := c ∈ [' ', '\t', '\n', '\r']

def nameChar (c : Char) : Bool := c.isAlphanum || c ∈ ['_', '-', ':', '.']

def isName (s : Str) : Bool := s ≠ [] && s.all nameChar

/-- A text is read to its end. Inside of a reference, what has been read of it is kept, the last
character first. -/
def readText : Option Str → Str → Option Str
  | none, [] => some []
  | some _, [] => none
  | none, c :: s =>
      if c = '<' then none
      else if c = '&' then readText (some []) s
      else (readText none s).map (c :: ·)
  | some body, c :: s =>
      if c = ';' then (reference body.reverse).bind fun d => (readText none s).map (d :: ·)
      else readText (some (c :: body)) s

def textValue (s : Str) : Option Str := readText none s

def Frame.add (f : Frame) (cs : List Content) : Frame := { f with contents := f.contents ++ cs }

/-- The text before a tag goes to the open element unless it is blank. -/
def flush (raw : Str) (f : Frame) : Option Frame :=
  if raw.all blank then some f else (textValue raw).map fun s => f.add [.text s]

def Reader.enter (f : Frame) (outer : List Frame) (tag : Tag) : Option Reader :=
  if isName tag.name then some ⟨.data [], ⟨tag, []⟩, f :: outer⟩ else none

def Reader.enterLeave (f : Frame) (outer : List Frame) (tag : Tag) : Option Reader :=
  if isName tag.name then some ⟨.data [], f.add [.element tag.name tag.attributes []], outer⟩
  else none

def Reader.leave (f : Frame) (outer : List Frame) (name : Str) : Option Reader :=
  match outer with
  | [] => none
  | g :: outer =>
      if name = f.name then
        some ⟨.data [], g.add [.element f.name f.attributes f.contents], outer⟩
      else none

def Tag.set (tag : Tag) (name raw : Str) : Option Tag :=
  if isName name ∧ name ∉ tag.attributes.map Prod.fst then
    (attrValue raw).map fun v => ⟨tag.name, tag.attributes ++ [(name, v)]⟩
  else none

def step : Reader → Char → Option Reader
  | ⟨.data raw, f, outer⟩, c =>
      if c = '<' then (flush raw f).map fun f => ⟨.markup, f, outer⟩
      else some ⟨.data (raw ++ [c]), f, outer⟩
  | ⟨.markup, f, outer⟩, c =>
      if c = '/' then some ⟨.stop [], f, outer⟩
      else if c = '?' then some ⟨.instruction false, f, outer⟩
      else if nameChar c then some ⟨.start [c], f, outer⟩
      else none
  | ⟨.instruction mark, f, outer⟩, c =>
      if mark ∧ c = '>' then some ⟨.data [], f, outer⟩
      else some ⟨.instruction (c = '?'), f, outer⟩
  | ⟨.stop name, f, outer⟩, c =>
      if c = '>' then Reader.leave f outer name
      else if nameChar c then some ⟨.stop (name ++ [c]), f, outer⟩
      else none
  | ⟨.start name, f, outer⟩, c =>
      if c = '>' then Reader.enter f outer ⟨name, []⟩
      else if c = '/' then some ⟨.slash ⟨name, []⟩, f, outer⟩
      else if blank c then some ⟨.attributes ⟨name, []⟩, f, outer⟩
      else if nameChar c then some ⟨.start (name ++ [c]), f, outer⟩
      else none
  | ⟨.attributes tag, f, outer⟩, c =>
      if c = '>' then Reader.enter f outer tag
      else if c = '/' then some ⟨.slash tag, f, outer⟩
      else if blank c then some ⟨.attributes tag, f, outer⟩
      else if nameChar c then some ⟨.key tag [c], f, outer⟩
      else none
  | ⟨.key tag name, f, outer⟩, c =>
      if c = '=' then some ⟨.equals tag name, f, outer⟩
      else if nameChar c then some ⟨.key tag (name ++ [c]), f, outer⟩
      else none
  | ⟨.equals tag name, f, outer⟩, c => if c = '"' then some ⟨.value tag name [], f, outer⟩ else none
  | ⟨.value tag name raw, f, outer⟩, c =>
      if c = '"' then (tag.set name raw).map fun tag => ⟨.valued tag, f, outer⟩
      else some ⟨.value tag name (raw ++ [c]), f, outer⟩
  | ⟨.valued tag, f, outer⟩, c =>
      if c = '>' then Reader.enter f outer tag
      else if c = '/' then some ⟨.slash tag, f, outer⟩
      else if blank c then some ⟨.attributes tag, f, outer⟩
      else none
  | ⟨.slash tag, f, outer⟩, c => if c = '>' then Reader.enterLeave f outer tag else none

def run (s : Str) (r : Reader) : Option Reader := s.foldlM step r

def read (s : Str) : Option Content :=
  (run s ⟨.data [], ⟨⟨[], []⟩, []⟩, []⟩).bind fun r =>
    match r.mode, r.frame.contents, r.outer with
    | .data raw, [.element name attributes contents], [] =>
        if raw.all blank then some (.element name attributes contents) else none
    | _, _, _ => none

def written (raws : List (Str × Str)) : Str :=
  raws.flatMap fun a => ' ' :: a.1 ++ '=' :: '"' :: a.2 ++ ['"']

def startTag (name : Str) (raws : List (Str × Str)) : Str := '<' :: name ++ written raws ++ ['>']

/-- The tag of an empty element, with a blank at its end or without. -/
def emptyTag (name : Str) (raws : List (Str × Str)) (space : Bool) : Str :=
  '<' :: name ++ written raws ++ (if space then [' '] else []) ++ ['/', '>']

def stopTag (name : Str) : Str := '<' :: '/' :: name ++ ['>']

/-- Only the characters that mean something are looked for. -/
instance decidableLiteral (s : Str) : Decidable (Literal s) :=
  List.decidableBAll (fun c => c ∉ s) ['&', '<', '"']

def areKeys (names : List Str) : Bool := names.all isName && decide names.Nodup

/-- The attributes are read from what is written for them. -/
structure Spells (raws attributes : List (Str × Str)) : Prop where
  keys : areKeys (raws.map Prod.fst) = true
  values : List.Forall₂ (fun r a => r.1 = a.1 ∧ attrValue r.2 = some a.2) raws attributes

/-- Between two tags, a text brings content to the open element. Only layout stands before it since
the last tag, or behind it. -/
def Brings (s : Str) (cs : List Content) : Prop :=
  ∀ raw f outer, raw.all blank = true → ∃ raw', raw'.all blank = true ∧
    run s ⟨.data raw, f, outer⟩ = some ⟨.data raw', f.add cs, outer⟩

section Values

variable {s t raw v w body b : Str}

theorem readValue_reference (hb : ';' ∉ b) (body s : Str) :
    readValue (some body) (b ++ ';' :: s) = (reference (body.reverse ++ b)).bind fun d =>
      (readValue none s).map fun v => (d :: v.1, v.2) := by
  induction b generalizing body with
  | nil => rw [List.nil_append, readValue, if_pos rfl, List.append_nil]
  | cons c b ih =>
      rw [List.mem_cons, not_or] at hb
      obtain ⟨hc, hb⟩ := hb
      rw [List.cons_append, readValue, if_neg (Ne.symm hc), ih hb]
      simp

theorem readText_reference (hb : ';' ∉ b) (body s : Str) :
    readText (some body) (b ++ ';' :: s) = (reference (body.reverse ++ b)).bind fun d =>
      (readText none s).map (d :: ·) := by
  induction b generalizing body with
  | nil => rw [List.nil_append, readText, if_pos rfl, List.append_nil]
  | cons c b ih =>
      rw [List.mem_cons, not_or] at hb
      obtain ⟨hc, hb⟩ := hb
      rw [List.cons_append, readText, if_neg (Ne.symm hc), ih hb]
      simp

/-- A value that is read is written with characters that stand for themselves and with references,
one after the other. -/
theorem attrValue_induction {motive : Str → Str → Prop} (nil : motive [] [])
    (char : ∀ c s v, (c ≠ '&' ∧ c ≠ '<' ∧ c ≠ '"') → motive s v → motive (c :: s) (c :: v))
    (ref : ∀ b c s v, ';' ∉ b → reference b = some c → motive s v →
      motive ('&' :: b ++ ';' :: s) (c :: v)) (h : attrValue raw = some v) : motive raw v := by
  have hread : ∀ (s v : Str) (body : Option Str), readValue body (s ++ ['"']) = some (v, []) →
      (body = none → motive s v) ∧ ∀ b, body = some b → ∃ b' c s' v', s = b' ++ ';' :: s' ∧
        v = c :: v' ∧ ';' ∉ b' ∧ reference (b.reverse ++ b') = some c ∧ motive s' v' := by
    intro s
    induction s with
    | nil =>
        intro v body h
        cases body with
        | none =>
            obtain ⟨rfl, -⟩ := Prod.mk.inj (Option.some.inj h)
            exact ⟨fun _ => nil, fun b hb => by cases hb⟩
        | some body => cases h
    | cons c s ih =>
        intro v body h
        -- What is read after a character is read from the rest of the text.
        have hrest : ∀ d, ((readValue none (s ++ ['"'])).map fun w => (d :: w.1, w.2)) =
            some (v, []) → ∃ w, v = d :: w ∧ motive s w := by
          intro d hd
          obtain ⟨w, hw, heq⟩ := Option.map_eq_some_iff.mp hd
          obtain ⟨hv, hnil⟩ := Prod.mk.inj heq
          exact ⟨w.1, hv.symm, (ih w.1 none (hw.trans (congrArg some (Prod.ext rfl hnil)))).1 rfl⟩
        rw [List.cons_append] at h
        cases body with
        | none =>
            refine ⟨fun _ => ?_, fun b hb => by cases hb⟩
            rw [readValue] at h
            split_ifs at h with hquot hlt hamp
            · obtain ⟨-, hnil⟩ := Prod.mk.inj (Option.some.inj h)
              exact absurd hnil (List.append_ne_nil_of_right_ne_nil s (List.cons_ne_nil _ _))
            · obtain ⟨b, d, s', v', rfl, rfl, hb, hd, hmotive⟩ := (ih v _ h).2 [] rfl
              rw [hamp]
              exact ref b d s' v' hb hd hmotive
            · obtain ⟨w, rfl, hw⟩ := hrest c h
              exact char c s w ⟨hamp, hlt, hquot⟩ hw
        | some body =>
            refine ⟨fun hnone => absurd hnone (Option.some_ne_none _), fun b hb => ?_⟩
            obtain rfl := Option.some.inj hb
            rw [readValue] at h
            split_ifs at h with hend
            · obtain ⟨d, hd, hmap⟩ := Option.bind_eq_some_iff.mp h
              obtain ⟨w, rfl, hw⟩ := hrest d hmap
              exact ⟨[], d, s, w, by rw [hend]; rfl, rfl, List.not_mem_nil, by simpa using hd, hw⟩
            · obtain ⟨b, d, s', v', rfl, rfl, hb', hd, hmotive⟩ := (ih v _ h).2 _ rfl
              refine ⟨c :: b, d, s', v', rfl, rfl, ?_, by simpa using hd, hmotive⟩
              exact List.mem_cons.not.mpr (not_or.mpr ⟨Ne.symm hend, hb'⟩)
  exact (hread raw v none (attrValue_eq_some.mp h)).1 rfl

theorem readValue_append (h : attrValue s = some v) (t : Str) :
    readValue none (s ++ t) = (readValue none t).map fun w => (v ++ w.1, w.2) := by
  refine attrValue_induction (motive := fun s v => readValue none (s ++ t) =
    (readValue none t).map fun w => (v ++ w.1, w.2)) ?_ ?_ ?_ h
  · simp
  · intro c s v hc ih
    rw [List.cons_append, readValue_cons hc, ih, Option.map_map]
    rfl
  · intro b c s v hb hc ih
    rw [List.append_assoc, List.cons_append, List.cons_append, readValue, if_neg (by decide),
      if_neg (by decide), if_pos rfl, readValue_reference hb, List.reverse_nil, List.nil_append,
      hc, Option.bind_some, ih, Option.map_map]
    rfl

theorem attrValue_append (hs : attrValue s = some v) (ht : attrValue t = some w) :
    attrValue (s ++ t) = some (v ++ w) := by
  rw [attrValue_eq_some] at ht ⊢
  rw [List.append_assoc, readValue_append hs, ht]
  rfl

theorem textValue_of_attrValue (h : attrValue raw = some v) : textValue raw = some v := by
  refine attrValue_induction (motive := fun raw v => textValue raw = some v) rfl ?_ ?_ h
  · intro c s v hc ih
    rw [textValue, readText, if_neg hc.2.1, if_neg hc.1, ← textValue, ih]
    rfl
  · intro b c s v hb hc ih
    rw [textValue] at ih
    rw [List.cons_append, textValue, readText, if_neg (by decide), if_pos rfl,
      readText_reference hb, List.reverse_nil, List.nil_append, hc, Option.bind_some, ih]
    rfl

theorem isSome_digit_of_number {base n : ℕ} (h : number base s = some n) :
    ∀ c ∈ s, (digit c).isSome := by
  have hfold : ∀ (s : Str) (m : ℕ), s.foldlM (fun n d => (digit d).bind fun v =>
      if v < base then some (n * base + v) else none) m = some n → ∀ c ∈ s, (digit c).isSome := by
    intro s
    induction s with
    | nil => exact fun _ _ c hc => absurd hc List.not_mem_nil
    | cons d s ih =>
        intro m hm
        rw [List.foldlM_cons] at hm
        obtain ⟨k, hk, hrest⟩ := Option.bind_eq_some_iff.mp hm
        obtain ⟨v, hv, -⟩ := Option.bind_eq_some_iff.mp hk
        exact List.forall_mem_cons.mpr ⟨by rw [hv]; rfl, ih k hrest⟩
  rw [number] at h
  split_ifs at h
  exact hfold s 0 h

theorem quote_notMem_reference {c : Char} (h : reference b = some c) : '"' ∉ b := by
  have hdigit : ¬ (digit '"').isSome := by decide
  have hnumber : ∀ base n ds, number base ds = some n → '"' ∉ ds := fun _ _ _ hn hmem =>
    hdigit (isSome_digit_of_number hn _ hmem)
  rw [reference.eq_def] at h
  split at h
  · obtain ⟨n, hn, -⟩ := Option.map_eq_some_iff.mp h
    simpa using hnumber _ _ _ hn
  · obtain ⟨n, hn, -⟩ := Option.map_eq_some_iff.mp h
    simpa using hnumber _ _ _ hn
  · have hkey : ∀ e ∈ predefined, '"' ∉ e.1 := by decide
    obtain ⟨l₁, l₂, heq, -⟩ := List.lookup_eq_some_iff.mp h
    exact hkey (b, c) (by rw [heq]; simp)

theorem quote_notMem (h : attrValue raw = some v) : '"' ∉ raw := by
  refine attrValue_induction (motive := fun raw _ => '"' ∉ raw) List.not_mem_nil ?_ ?_ h
  · intro c s v hc ih
    exact List.mem_cons.not.mpr (not_or.mpr ⟨hc.2.2.symm, ih⟩)
  · intro b c s v hb hc ih
    have hquot := quote_notMem_reference hc
    simp [ih, hquot]

end Values

section Run

variable {s t : Str} {r : Reader} {f : Frame} {outer : List Frame}

theorem run_append (s t : Str) (r : Reader) : run (s ++ t) r = (run s r).bind (run t) :=
  List.foldlM_append

theorem run_cons (c : Char) (s : Str) (r : Reader) : run (c :: s) r = (step r c).bind (run s) :=
  List.foldlM_cons

theorem run_collect {mode : Str → Mode}
    (h : ∀ c ∈ s, ∀ raw, step ⟨mode raw, f, outer⟩ c = some ⟨mode (raw ++ [c]), f, outer⟩)
    (raw : Str) : run s ⟨mode raw, f, outer⟩ = some ⟨mode (raw ++ s), f, outer⟩ := by
  induction s generalizing raw with
  | nil => rw [List.append_nil]; rfl
  | cons c s ih =>
      rw [run_cons, h c List.mem_cons_self, Option.bind_some,
        ih (fun d hd => h d (List.mem_cons_of_mem _ hd)), List.append_assoc]
      rfl

theorem run_data (hs : '<' ∉ s) (raw : Str) :
    run s ⟨.data raw, f, outer⟩ = some ⟨.data (raw ++ s), f, outer⟩ :=
  run_collect (fun c hc raw => by
    rw [step]
    exact if_neg fun h : c = '<' => hs (h ▸ hc)) raw

theorem run_value {tag : Tag} {name : Str} (hs : '"' ∉ s) (raw : Str) :
    run s ⟨.value tag name raw, f, outer⟩ = some ⟨.value tag name (raw ++ s), f, outer⟩ :=
  run_collect (fun c hc raw => by
    rw [step]
    exact if_neg fun h : c = '"' => hs (h ▸ hc)) raw

theorem nameChar_ne {c : Char} (h : nameChar c) :
    c ≠ '>' ∧ c ≠ '/' ∧ c ≠ '=' ∧ c ≠ '?' ∧ blank c = false := by
  have hall : (['>', '/', '=', '?', ' ', '\t', '\n', '\r'].all fun d => !nameChar d) = true := by
    decide
  have hmeans : ∀ d ∈ ['>', '/', '=', '?', ' ', '\t', '\n', '\r'], nameChar d = false :=
    fun d hd => Bool.not_eq_true' _ |>.mp (List.all_eq_true.mp hall d hd)
  have hne : ∀ d ∈ ['>', '/', '=', '?', ' ', '\t', '\n', '\r'], c ≠ d := by
    rintro d hd rfl
    exact absurd h (by rw [hmeans c hd]; decide)
  refine ⟨hne _ (by simp), hne _ (by simp), hne _ (by simp), hne _ (by simp), ?_⟩
  rw [blank, decide_eq_false_iff_not]
  have hlayout : [' ', '\t', '\n', '\r'] ⊆ ['>', '/', '=', '?', ' ', '\t', '\n', '\r'] := by decide
  exact fun hmem => hne c (hlayout hmem) rfl

theorem isName_iff : isName s = true ↔ s ≠ [] ∧ ∀ c ∈ s, nameChar c = true := by
  simp [isName]

theorem exists_cons_of_isName (h : isName s) :
    ∃ c s', s = c :: s' ∧ nameChar c ∧ ∀ d ∈ s', nameChar d = true := by
  obtain ⟨hne, hall⟩ := isName_iff.mp h
  obtain ⟨c, s', rfl⟩ := List.exists_cons_of_ne_nil hne
  exact ⟨c, s', rfl, List.forall_mem_cons.mp hall⟩

theorem run_start (hs : ∀ c ∈ s, nameChar c = true) (name : Str) :
    run s ⟨.start name, f, outer⟩ = some ⟨.start (name ++ s), f, outer⟩ :=
  run_collect (fun c hc name => by
    obtain ⟨h₁, h₂, -, -, h₃⟩ := nameChar_ne (hs c hc)
    simp only [step, h₁, h₂, h₃, hs c hc, if_false, if_true, Bool.false_eq_true]) name

theorem run_stop (hs : ∀ c ∈ s, nameChar c = true) (name : Str) :
    run s ⟨.stop name, f, outer⟩ = some ⟨.stop (name ++ s), f, outer⟩ :=
  run_collect (fun c hc name => by
    simp only [step, (nameChar_ne (hs c hc)).1, hs c hc, if_false, if_true]) name

theorem run_key {tag : Tag} (hs : ∀ c ∈ s, nameChar c = true) (name : Str) :
    run s ⟨.key tag name, f, outer⟩ = some ⟨.key tag (name ++ s), f, outer⟩ :=
  run_collect (fun c hc name => by
    simp only [step, (nameChar_ne (hs c hc)).2.2.1, hs c hc, if_false, if_true]) name

theorem run_name {raw : Str} (hs : isName s) (hraw : raw.all blank) :
    run ('<' :: s) ⟨.data raw, f, outer⟩ = some ⟨.start s, f, outer⟩ := by
  obtain ⟨c, s, rfl, hc, hs⟩ := exists_cons_of_isName hs
  obtain ⟨-, h₁, -, h₂, -⟩ := nameChar_ne hc
  rw [run_cons, step, if_pos rfl, flush, if_pos hraw, Option.map_some, Option.bind_some, run_cons,
    step, if_neg h₁, if_neg h₂, if_pos hc, Option.bind_some, run_start hs]
  rfl

/-- Where attributes may stand: behind the name, or behind another attribute. -/
inductive Open (tag : Tag) : Mode → Prop
  | start : tag.attributes = [] → Open tag (.start tag.name)
  | valued : Open tag (.valued tag)

theorem run_attribute {tag : Tag} {mode : Mode} {name raw v : Str} (h : Open tag mode)
    (hname : isName name) (hnew : name ∉ tag.attributes.map Prod.fst)
    (hv : attrValue raw = some v) :
    run (' ' :: name ++ '=' :: '"' :: raw ++ ['"']) ⟨mode, f, outer⟩ =
      some ⟨.valued ⟨tag.name, tag.attributes ++ [(name, v)]⟩, f, outer⟩ := by
  have hblank : step ⟨mode, f, outer⟩ ' ' = some ⟨.attributes tag, f, outer⟩ := by
    cases h with
    | start hnil =>
        obtain ⟨n, attributes⟩ := tag
        obtain rfl : attributes = [] := hnil
        rfl
    | valued => rfl
  obtain ⟨c, s, rfl, hc, hs⟩ := exists_cons_of_isName hname
  obtain ⟨h₁, h₂, -, -, h₃⟩ := nameChar_ne hc
  have hkey : step ⟨.attributes tag, f, outer⟩ c = some ⟨.key tag [c], f, outer⟩ := by
    simp only [step, h₁, h₂, h₃, hc, if_false, if_true, Bool.false_eq_true]
  have hset : tag.set (c :: s) raw = some ⟨tag.name, tag.attributes ++ [(c :: s, v)]⟩ := by
    rw [Tag.set, if_pos ⟨hname, hnew⟩, hv]
    rfl
  have hsplit : ' ' :: (c :: s) ++ '=' :: '"' :: raw ++ ['"'] =
      [' ', c] ++ s ++ ['=', '"'] ++ raw ++ ['"'] := by simp
  have hfirst : run [' ', c] ⟨mode, f, outer⟩ = some ⟨.key tag [c], f, outer⟩ := by
    rw [run_cons, hblank, Option.bind_some, run_cons, hkey]
    rfl
  have hlast : run ['"'] ⟨.value tag (c :: s) raw, f, outer⟩ =
      some ⟨.valued ⟨tag.name, tag.attributes ++ [(c :: s, v)]⟩, f, outer⟩ := by
    rw [run_cons, step, if_pos rfl, hset]
    rfl
  rw [hsplit, run_append, run_append, run_append, run_append, hfirst, Option.bind_some, run_key hs,
    Option.bind_some, show run ['=', '"'] ⟨.key tag ([c] ++ s), f, outer⟩ =
      some ⟨.value tag (c :: s) [], f, outer⟩ from rfl, Option.bind_some,
    run_value (quote_notMem hv), Option.bind_some, List.nil_append, hlast]

theorem run_written {raws attributes : List (Str × Str)} {tag : Tag} {mode : Mode}
    (h : Open tag mode) (hnames : (raws.map Prod.fst).all isName = true)
    (hnodup : (tag.attributes.map Prod.fst ++ raws.map Prod.fst).Nodup)
    (hvalues : List.Forall₂ (fun r a => r.1 = a.1 ∧ attrValue r.2 = some a.2) raws attributes) :
    ∃ mode', Open ⟨tag.name, tag.attributes ++ attributes⟩ mode' ∧
      run (written raws) ⟨mode, f, outer⟩ = some ⟨mode', f, outer⟩ := by
  induction hvalues generalizing tag mode with
  | nil => exact ⟨mode, by rwa [List.append_nil], rfl⟩
  | @cons r a raws attributes ha _ ih =>
      obtain ⟨name, raw⟩ := r
      obtain ⟨hname, hv⟩ := ha
      obtain rfl : name = a.1 := hname
      rw [List.map_cons, List.all_cons, Bool.and_eq_true] at hnames
      have hnew : a.1 ∉ tag.attributes.map Prod.fst := fun hmem =>
        List.disjoint_of_nodup_append hnodup hmem (by simp)
      obtain ⟨mode', hmode, hrun⟩ := @ih ⟨tag.name, tag.attributes ++ [(a.1, a.2)]⟩ _ .valued
        hnames.2 (by simpa using hnodup)
      refine ⟨mode', by simpa using hmode, ?_⟩
      rw [written, List.flatMap_cons, run_append, run_attribute h hnames.1 hnew hv,
        Option.bind_some, ← written, hrun]

end Run

section Brings

variable {s t name : Str} {cs ds : List Content} {raws attributes : List (Str × Str)}

@[simp] theorem add_nil (f : Frame) : f.add [] = f := by
  rw [Frame.add, List.append_nil]

@[simp] theorem add_add (f : Frame) (cs ds : List Content) :
    (f.add cs).add ds = f.add (cs ++ ds) := by
  rw [Frame.add, Frame.add, Frame.add, List.append_assoc]

theorem blank_ne {c : Char} (h : blank c = true) : c ≠ '<' := by
  rintro rfl
  exact absurd h (by decide)

theorem brings_blank (hs : s.all blank = true) : Brings s [] := by
  intro raw f outer hraw
  refine ⟨raw ++ s, by rw [List.all_append, hraw, hs]; rfl, ?_⟩
  rw [add_nil]
  exact run_data (fun hmem => blank_ne (List.all_eq_true.mp hs _ hmem) rfl) raw

theorem brings_nil : Brings [] [] := brings_blank rfl

theorem Brings.append (hs : Brings s cs) (ht : Brings t ds) : Brings (s ++ t) (cs ++ ds) := by
  intro raw f outer hraw
  obtain ⟨raw₁, hraw₁, hrun₁⟩ := hs raw f outer hraw
  obtain ⟨raw₂, hraw₂, hrun₂⟩ := ht raw₁ (f.add cs) outer hraw₁
  refine ⟨raw₂, hraw₂, ?_⟩
  rw [run_append, hrun₁, Option.bind_some, hrun₂, add_add]

/-- The text for the entries of a list brings what it brings for each of them. -/
theorem brings_flatMap {α : Type*} {l : List α} {g : α → Str} {k : α → List Content}
    (h : ∀ a ∈ l, Brings (g a) (k a)) : Brings (l.flatMap g) (l.flatMap k) := by
  induction l with
  | nil => exact brings_nil
  | cons a l ih =>
      rw [List.flatMap_cons, List.flatMap_cons]
      exact (h a List.mem_cons_self).append (ih fun b hb => h b (List.mem_cons_of_mem _ hb))

theorem areKeys_iff {names : List Str} :
    areKeys names = true ↔ names.all isName = true ∧ names.Nodup := by
  rw [areKeys, Bool.and_eq_true, decide_eq_true_iff]

theorem Spells.run_tag (h : Spells raws attributes) (hname : isName name) {raw : Str}
    (hraw : raw.all blank) (f : Frame) (outer : List Frame) : ∃ mode,
      Open ⟨name, attributes⟩ mode ∧
        run ('<' :: name ++ written raws) ⟨.data raw, f, outer⟩ = some ⟨mode, f, outer⟩ := by
  obtain ⟨hnames, hnodup⟩ := areKeys_iff.mp h.keys
  obtain ⟨mode, hmode, hrun⟩ := @run_written f outer raws attributes ⟨name, []⟩ _ (.start rfl)
    hnames hnodup h.values
  refine ⟨mode, hmode, ?_⟩
  rw [run_append, run_name hname hraw, Option.bind_some, hrun]

theorem Spells.run_startTag (h : Spells raws attributes) (hname : isName name) {raw : Str}
    (hraw : raw.all blank) (f : Frame) (outer : List Frame) :
    run (startTag name raws) ⟨.data raw, f, outer⟩ =
      some ⟨.data [], ⟨⟨name, attributes⟩, []⟩, f :: outer⟩ := by
  obtain ⟨mode, hmode, hrun⟩ := h.run_tag hname hraw f outer
  rw [startTag, run_append, hrun, Option.bind_some, run_cons]
  have henter : step ⟨mode, f, outer⟩ '>' = Reader.enter f outer ⟨name, attributes⟩ := by
    cases hmode with
    | start hnil =>
        obtain rfl : attributes = [] := hnil
        rfl
    | valued => rfl
  rw [henter, Reader.enter, if_pos hname]
  rfl

theorem run_stopTag (hname : isName name) {raw : Str} {f g : Frame}
    (hflush : flush raw f = some ⟨⟨name, attributes⟩, cs⟩) (outer : List Frame) :
    run (stopTag name) ⟨.data raw, f, g :: outer⟩ =
      some ⟨.data [], g.add [.element name attributes cs], outer⟩ := by
  have hopen : run ['<', '/'] ⟨.data raw, f, g :: outer⟩ =
      some ⟨.stop [], ⟨⟨name, attributes⟩, cs⟩, g :: outer⟩ := by
    rw [run_cons, step, if_pos rfl, hflush]
    rfl
  have hsplit : stopTag name = ['<', '/'] ++ name ++ ['>'] := rfl
  rw [hsplit, run_append, run_append, hopen, Option.bind_some, run_stop (isName_iff.mp hname).2,
    Option.bind_some, run_cons, step, if_pos rfl, Reader.leave, List.nil_append,
    if_pos rfl]
  rfl

theorem brings_emptyTag (h : Spells raws attributes) (hname : isName name) (space : Bool) :
    Brings (emptyTag name raws space) [.element name attributes []] := by
  intro raw f outer hraw
  refine ⟨[], rfl, ?_⟩
  obtain ⟨mode, hmode, hrun⟩ := h.run_tag hname hraw f outer
  rw [emptyTag, run_append, run_append, hrun, Option.bind_some]
  have henter : (run (if space then [' '] else []) ⟨mode, f, outer⟩).bind (run ['/', '>']) =
      (Reader.enterLeave f outer ⟨name, attributes⟩).bind some := by
    cases hmode with
    | start hnil =>
        obtain rfl : attributes = [] := hnil
        cases space <;> rfl
    | valued => cases space <;> rfl
  rw [henter, Reader.enterLeave, if_pos hname]
  rfl

theorem Brings.element (hs : Brings s cs) (h : Spells raws attributes) (hname : isName name) :
    Brings (startTag name raws ++ s ++ stopTag name) [.element name attributes cs] := by
  intro raw f outer hraw
  refine ⟨[], rfl, ?_⟩
  obtain ⟨raw', hraw', hrun⟩ := hs [] ⟨⟨name, attributes⟩, []⟩ (f :: outer) rfl
  rw [run_append, run_append, h.run_startTag hname hraw, Option.bind_some, hrun, Option.bind_some,
    run_stopTag hname]
  rw [flush, if_pos hraw']
  rfl

theorem brings_text {v : Str} (hv : textValue s = some v) (hs : '<' ∉ s)
    (h : Spells raws attributes) (hname : isName name) :
    Brings (startTag name raws ++ s ++ stopTag name)
      [.element name attributes (if s.all blank then [] else [.text v])] := by
  intro raw f outer hraw
  refine ⟨[], rfl, ?_⟩
  rw [run_append, run_append, h.run_startTag hname hraw, Option.bind_some, run_data hs,
    Option.bind_some, run_stopTag hname]
  rw [List.nil_append, flush, hv]
  split <;> rfl

theorem brings_instruction (hs : '?' ∉ s) : Brings ('<' :: '?' :: s ++ ['?', '>']) [] := by
  intro raw f outer hraw
  refine ⟨[], rfl, ?_⟩
  have hopen : run ['<', '?'] ⟨.data raw, f, outer⟩ = some ⟨.instruction false, f, outer⟩ := by
    rw [run_cons, step, if_pos rfl, flush, if_pos hraw]
    rfl
  have hkeep : ∀ s : Str, '?' ∉ s →
      run s ⟨.instruction false, f, outer⟩ = some ⟨.instruction false, f, outer⟩ := by
    intro s hs
    induction s with
    | nil => rfl
    | cons c s ih =>
        rw [List.mem_cons, not_or] at hs
        rw [run_cons, step, if_neg (by simp), decide_eq_false (Ne.symm hs.1), Option.bind_some,
          ih hs.2]
  have hsplit : '<' :: '?' :: s ++ ['?', '>'] = ['<', '?'] ++ s ++ ['?', '>'] := rfl
  rw [hsplit, run_append, run_append, hopen, Option.bind_some, hkeep s hs, Option.bind_some,
    add_nil]
  rfl

theorem read_of_brings (h : Brings s [.element name attributes cs]) :
    read s = some (.element name attributes cs) := by
  obtain ⟨raw, hraw, hrun⟩ := h [] ⟨⟨[], []⟩, []⟩ [] rfl
  rw [read, hrun, Option.bind_some]
  exact if_pos hraw

example : read "<?xml?> <a b=\"&lt;\"> <c/>x</a>".toList =
    some (.element ['a'] [(['b'], ['<'])] [.element ['c'] [] [], .text ['x']]) := rfl

end Brings

end Xml

end Puremake
