import Puremake.Api.Accessors
import Puremake.Lua.Table

/-!
# What a script leaves in a field

The session that the calls of a script build does not depend on the fields. So the object that
an accessor works on is known from the calls of `solution`, `project`, `usage` and
`configuration` before it, and the calls that reach a field of an object can be listed
beforehand. A list holds what these calls accept, in their order; a string is the last one
that was accepted, or the one that the object was made with.
-/

namespace Puremake

open Os (currentdir)

section Setters

variable (allowed : Option Allowed)

/-- The values that are accepted of some strings, up to the first that is not, and its error. -/
def accepted : List Str → List Str × Except AccessError Unit
  | [] => ([], .ok ())
  | v :: vs =>
      match checkvalue v allowed with
      | .ok w => (w :: (accepted vs).1, (accepted vs).2)
      | .error err => ([], .error err)

variable {allowed}

theorem accepted_append (vs ws : List Str) : accepted allowed (vs ++ ws) =
    match (accepted allowed vs).2 with
    | .ok () => ((accepted allowed vs).1 ++ (accepted allowed ws).1, (accepted allowed ws).2)
    | .error err => ((accepted allowed vs).1, .error err) := by
  induction vs with
  | nil => rfl
  | cons v vs ih =>
      rw [List.cons_append, accepted, accepted]
      cases checkvalue v allowed with
      | error err => rfl
      | ok w =>
          simp only [ih]
          cases (accepted allowed vs).2 <;> rfl

mutual

theorem doinsert_eq (t : Tbl) : ∀ v : Nested, doinsert allowed t v =
    (⟨t.arr ++ (accepted allowed v.texts).1, t.keys⟩, (accepted allowed v.texts).2)
  | .text s => by
      rw [doinsert, Nested.texts, accepted]
      cases checkvalue s allowed with
      | ok w => simp [Tbl.insert, accepted]
      | error err => simp
  | .list vs => by
      rw [doinsert, Nested.texts, doinsertAll_eq t vs]

theorem doinsertAll_eq (t : Tbl) : ∀ vs : List Nested, doinsertAll allowed t vs =
    (⟨t.arr ++ (accepted allowed (Nested.textsList vs)).1, t.keys⟩,
      (accepted allowed (Nested.textsList vs)).2)
  | [] => by simp [doinsertAll, Nested.textsList, accepted]
  | v :: vs => by
      rw [doinsertAll, doinsert_eq t v, Nested.textsList, accepted_append]
      cases (accepted allowed v.texts).2 with
      | error err => rfl
      | ok u => simp only [doinsertAll_eq _ vs, List.append_assoc]

end

mutual

theorem insertflat_eq (t : Tbl) : ∀ v : Nested, insertflat t v = ⟨t.arr ++ v.texts, t.keys⟩
  | .text s => by rw [insertflat, Nested.texts, Tbl.insert]
  | .list vs => by rw [insertflat, Nested.texts, insertflatAll_eq t vs]

theorem insertflatAll_eq (t : Tbl) : ∀ vs : List Nested,
    insertflatAll t vs = ⟨t.arr ++ Nested.textsList vs, t.keys⟩
  | [] => by rw [insertflatAll, Nested.textsList, List.append_nil]
  | v :: vs => by
      rw [insertflatAll, insertflat_eq t v, insertflatAll_eq _ vs, Nested.textsList,
        List.append_assoc]

end

end Setters

def FieldKind.isText : FieldKind → Bool
  | .string | .path => true
  | _ => false

/-- The strings that a field holds, where a field with keys has some under each key. -/
def FieldKind.values (key : Str) : (k : FieldKind) → Option k.Val → List Str
  | .string, v | .path, v => v.toList
  | .list, v | .dirlist, v | .filelist, v => (v.getD Tbl.empty).arr
  | .keyvalue, v | .keypath, v => (((v.getD []).lookup key).getD Tbl.empty).arr

theorem FieldKind.values_none (key : Str) (k : FieldKind) : k.values key none = [] := by
  cases k <;> rfl

theorem FieldKind.values_initial (key : Str) (k : FieldKind) : k.values key k.initial = [] := by
  cases k <;> rfl

theorem FieldKind.head?_values {key : Str} {k : FieldKind} (hk : k.isText) {o : Option k.Val}
    {v : Str} (hv : v ∈ k.values key o) : (k.values key o).head? = some v := by
  have htext : ∀ o : Option Str, v ∈ o.toList → o.toList.head? = some v := by
    intro o hv
    rw [Option.mem_toList.mp hv, Option.toList_some, List.head?_cons]
  cases k with
  | string => exact htext o hv
  | path => exact htext o hv
  | _ => cases hk

def broughtUnder (key : Str) : Given KeyTable → List Str
  | .value values => (values.entries.lookup key).elim [] Nested.texts
  | _ => []

def brought (allowed : Option Allowed) (e : Surroundings) (key : Str) :
    (k : FieldKind) → k.Arg → List Str
  | .string, .value s => (accepted allowed [s]).1
  | .path, .value s => [Path.getabsolute e.cwd s]
  | .list, some v => (accepted allowed v.texts).1
  | .dirlist, value => (matched e false value).toOption.elim [] Nested.texts
  | .filelist, value => (matched e true value).toOption.elim [] Nested.texts
  | .keyvalue, values | .keypath, values => broughtUnder key values
  | .string, _ | .path, _ | .list, none => []

section Setter

variable {allowed : Option Allowed} {e : Surroundings} {key : Str}

theorem accepted_none (vs : List Str) : accepted none vs = (vs, .ok ()) := by
  induction vs with
  | nil => rfl
  | cons v vs ih => rw [accepted, checkvalue, ih]

/-- What is under a key after the tables of some entries were extended. -/
theorem lookup_insertflat {entries : List (Str × Nested)} (h : (entries.map Prod.fst).Nodup)
    (field : List (Str × Tbl)) :
    (((entries.foldl (fun field (key, value) =>
        assign key (insertflat ((field.lookup key).getD Tbl.empty) value) field) field).lookup
          key).getD Tbl.empty).arr =
      ((field.lookup key).getD Tbl.empty).arr ++ (entries.lookup key).elim [] Nested.texts := by
  induction entries generalizing field with
  | nil => simp
  | cons entry entries ih =>
      obtain ⟨k, value⟩ := entry
      rw [List.map_cons, List.nodup_cons] at h
      rw [List.foldl_cons, ih h.2]
      by_cases hk : key = k
      · subst hk
        have hnone : entries.lookup key = none := by
          rw [← Option.not_isSome_iff_eq_none, lookup_isSome_iff_mem_keys]
          exact h.1
        rw [lookup_assign_self, hnone, List.lookup_cons_self, insertflat_eq]
        simp
      · rw [lookup_assign_of_ne hk, lookup_cons_of_ne hk]

theorem values_setarray (field : Option Tbl) (v : Nested) :
    ((setarray allowed (some v) field).1.getD Tbl.empty).arr =
      (field.getD Tbl.empty).arr ++ (accepted allowed v.texts).1 := by
  rw [setarray, doinsert_eq]
  rfl

theorem values_setkeyvalue (values : Given KeyTable) (field : Option (List (Str × Tbl))) :
    ((((setkeyvalue e.ord values field).1.getD []).lookup key).getD Tbl.empty).arr =
      (((field.getD []).lookup key).getD Tbl.empty).arr ++ broughtUnder key values := by
  cases values with
  | value values =>
      rw [setkeyvalue, broughtUnder, ← e.ord.lookup_enum values.nodup]
      refine lookup_insertflat ?_ (field.getD [])
      exact ((e.ord.perm values.entries).map Prod.fst).nodup_iff.mpr values.nodup
  | _ => simp [setkeyvalue, broughtUnder]

theorem values_setter {k : FieldKind} (hk : k.isText = false) {arg : k.Arg}
    {set : Option k.Val → Left k.Val} (h : setter allowed e k arg = .ok set)
    (field : Option k.Val) :
    k.values key (set field).1 = k.values key field ++ brought allowed e key k arg := by
  have hpaths : ∀ wantfiles (value : Given Nested) (set : Option Tbl → Left Tbl),
      ((matched e wantfiles value).map fun v => setarray none (some v)) = .ok set →
      ∀ field : Option Tbl, ((set field).1.getD Tbl.empty).arr = (field.getD Tbl.empty).arr ++
        (matched e wantfiles value).toOption.elim [] Nested.texts := by
    intro wantfiles value set hset field
    cases hmatched : matched e wantfiles value with
    | error err =>
        rw [hmatched] at hset
        cases hset
    | ok v =>
        rw [hmatched] at hset
        cases hset
        exact (values_setarray field v).trans (by rw [accepted_none]; rfl)
  cases k with
  | string => cases hk
  | path => cases hk
  | list =>
      cases h
      cases arg with
      | none => simp [FieldKind.values, setarray, brought]
      | some v => exact values_setarray field v
  | dirlist => exact hpaths false arg set h field
  | filelist => exact hpaths true arg set h field
  | keyvalue =>
      cases h
      exact values_setkeyvalue arg field
  | keypath =>
      cases h
      exact values_setkeyvalue arg field

theorem isSome_setter {k : FieldKind} (hk : k.initial.isSome) {arg : k.Arg}
    {set : Option k.Val → Left k.Val} (h : setter allowed e k arg = .ok set)
    (field : Option k.Val) : (set field).1.isSome := by
  have harray : ∀ value (field : Option Tbl), (setarray allowed value field).1.isSome := by
    intro value field
    cases value <;> rfl
  have hpaths : ∀ {wantfiles} {value : Given Nested} {set : Option Tbl → Left Tbl},
      ((matched e wantfiles value).map fun v => setarray none (some v)) = .ok set →
      ∀ field : Option Tbl, (set field).1.isSome := by
    intro wantfiles value set hset field
    cases hmatched : matched e wantfiles value with
    | error err =>
        rw [hmatched] at hset
        cases hset
    | ok v =>
        rw [hmatched] at hset
        cases hset
        rfl
  have hkeys : ∀ (values : Given KeyTable) (field : Option (List (Str × Tbl))),
      (setkeyvalue e.ord values field).1.isSome := by
    intro values field
    cases values <;> rfl
  cases k with
  | string => cases hk
  | path => cases hk
  | list =>
      cases h
      exact harray arg field
  | dirlist => exact hpaths h field
  | filelist => exact hpaths h field
  | keyvalue =>
      cases h
      exact hkeys arg field
  | keypath =>
      cases h
      exact hkeys arg field

theorem brought_of_error {k : FieldKind} {arg : k.Arg} {err : AccessError}
    (h : setter allowed e k arg = .error err) : brought allowed e key k arg = [] := by
  cases k with
  | string =>
      cases arg with
      | other type => rfl
      | _ => cases h
  | path =>
      cases arg with
      | other type => rfl
      | _ => cases h
  | list => cases h
  | dirlist =>
      rw [brought]
      cases hmatched : matched e false arg with
      | error err => rfl
      | ok v => simp [setter, hmatched, Except.map] at h
  | filelist =>
      rw [brought]
      cases hmatched : matched e true arg with
      | error err => rfl
      | ok v => simp [setter, hmatched, Except.map] at h
  | keyvalue => cases h
  | keypath => cases h

/-- A setter of a string leaves the one it is brought, or the one that is there. -/
theorem text_setter {k : FieldKind} (hk : k.isText) {arg : k.Arg}
    {set : Option k.Val → Left k.Val} (h : setter allowed e k arg = .ok set)
    (field : Option k.Val) : (k.values key (set field).1).head? =
      (brought allowed e key k arg).getLast?.or (k.values key field).head? := by
  cases k with
  | string =>
      cases arg with
      | nil =>
          cases h
          rfl
      | value s =>
          cases h
          rw [brought, accepted, setstring]
          cases checkvalue s allowed <;> rfl
      | other type => cases h
  | path =>
      cases arg with
      | nil =>
          cases h
          rfl
      | value s =>
          cases h
          rfl
      | other type => cases h
  | _ => cases hk

end Setter

namespace Session

section Steps

variable {host : Host} {R : Session → Session → Prop}

/-- A call of one of the four functions is made of four kinds of steps. -/
theorem call_steps (hrefl : ∀ s, R s s) (htrans : ∀ {s t u}, R s t → R t u → R s u)
    (hcurrent : ∀ s c, R s { s with currentContainer := c })
    (hblock : ∀ s c words, R s (s.addBlock c (newBlock words)))
    (hproject : ∀ s name sln isUsage, R s (s.createproject host name sln isUsage).1)
    (hsolution : ∀ s name, R s (s.newSolution host name).1) (s : Session) (c : Call) :
    R s (s.call host c) := by
  have hconfiguration : ∀ s terms, R s (s.configuration terms).1 := by
    intro s terms
    cases terms with
    | none => exact hrefl s
    | some terms =>
        rw [Session.configuration]
        cases s.currentContainer with
        | none => exact hrefl s
        | some c => exact hblock s c _
  have hactivate : ∀ s c, R s (s.activate c).1 := fun s c =>
    htrans (hcurrent s (some c))
      (hconfiguration { s with currentContainer := some c } (some (.table [])))
  have hcreate : ∀ s name sln isUsage,
      R s ((s.createproject host name sln isUsage).1.activate
        (.project (s.createproject host name sln isUsage).2)).1 := fun s name sln isUsage =>
    htrans (hproject s name sln isUsage) (hactivate _ _)
  cases c with
  | configuration terms => exact hconfiguration s terms
  | solution name =>
      cases name with
      | none => exact hrefl s
      | some name =>
          rw [call, solution]
          cases s.list.lookup name with
          | some i => exact hactivate s _
          | none => exact htrans (hsolution s name) (hactivate _ _)
  | project name =>
      cases name with
      | none =>
          rw [call, Session.project.eq_def]
          rcases s.currentContainer with - | (i | p) <;> exact hrefl s
      | some name =>
          rw [call, Session.project]
          cases s.currentSolution with
          | none => exact hrefl s
          | some sln =>
              cases hp : (s.solutions sln).named.lookup name with
              | none => simpa only [hp] using hcreate s name sln false
              | some p =>
                  simp only [hp]
                  split
                  · exact hcreate s name sln false
                  · exact hactivate s _
  | usage name =>
      cases name with
      | none =>
          rw [call, Session.usage.eq_def]
          rcases s.currentContainer with - | (i | p) <;> exact hrefl s
      | some name =>
          rw [call, Session.usage]
          cases s.currentSolution with
          | none => exact hrefl s
          | some sln =>
              cases hp : (s.solutions sln).named.lookup name with
              | none => simpa only [hp] using hcreate s name sln true
              | some p =>
                  simp only [hp]
                  split
                  · exact hcreate s name sln true
                  · exact hrefl s

end Steps

/-- Objects that were made stay, with the fields that they were made with. -/
structure Keeps (s s' : Session) : Prop where
  exist : ∀ t, s.Exists t → s'.Exists t
  fields : ∀ t, s.Exists t → s'.initialFields t = s.initialFields t

theorem Keeps.refl (s : Session) : s.Keeps s := ⟨fun _ h => h, fun _ _ => rfl⟩

theorem Keeps.trans {s t u : Session} (h : s.Keeps t) (h' : t.Keeps u) : s.Keeps u :=
  ⟨fun x hx => h'.exist x (h.exist x hx),
    fun x hx => (h'.fields x (h.exist x hx)).trans (h.fields x hx)⟩

theorem Keeps.of {s s' : Session} (hsolutions : s.solutionCount ≤ s'.solutionCount)
    (hprojects : s.projectCount ≤ s'.projectCount) (hblocks : s.blockCount ≤ s'.blockCount)
    (hsolution : ∀ i < s.solutionCount, (s'.solutions i).basedir = (s.solutions i).basedir)
    (hproject : ∀ p < s.projectCount, (s'.projects p).basedir = (s.projects p).basedir ∧
      (s'.projects p).uuid = (s.projects p).uuid)
    (hblock : ∀ b < s.blockCount, s'.blocks b = s.blocks b) : s.Keeps s' where
  exist := by
    rintro ((i | p) | b) h
    · exact Nat.lt_of_lt_of_le h hsolutions
    · exact Nat.lt_of_lt_of_le h hprojects
    · exact Nat.lt_of_lt_of_le h hblocks
  fields := by
    rintro ((i | p) | b) h
    · rw [initialFields, initialFields, hsolution i h]
    · rw [initialFields, initialFields, (hproject p h).1, (hproject p h).2]
    · rw [initialFields, initialFields, hblock b h]

theorem keeps_addBlock (s : Session) (c : ContainerRef) (blk : BlockObj) :
    s.Keeps (s.addBlock c blk) := by
  refine Keeps.of (by simp) (by simp) (by simp) ?_ ?_ ?_
  · intro i _
    cases c with
    | solution j =>
        by_cases h : i = j
        · subst h
          simp [addBlock]
        · simp [addBlock, h]
    | project q => rfl
  · intro p _
    cases c with
    | solution j => exact ⟨rfl, rfl⟩
    | project q =>
        by_cases h : p = q
        · subst h
          simp [addBlock]
        · simp [addBlock, h]
  · intro b hb
    rw [addBlock_blocks, Function.update_of_ne (Nat.ne_of_lt hb)]

theorem createproject_basedir (host : Host) (s : Session) (name : Str) (sln : ℕ)
    (isUsage : Bool) (i : ℕ) : ((s.createproject host name sln isUsage).1.solutions i).basedir =
      (s.solutions i).basedir := by
  simp only [createproject]
  by_cases h : i = sln
  · subst h
    simp
  · simp [h]

/-- A new project has the directory and the identifier of the host, and the other projects keep
theirs. -/
theorem createproject_projects (host : Host) (s : Session) (name : Str) (sln : ℕ)
    (isUsage : Bool) (p : ℕ) :
    (((s.createproject host name sln isUsage).1.projects p).basedir,
        ((s.createproject host name sln isUsage).1.projects p).uuid) =
      if p = s.projectCount then (host.cwd, host.uuid p)
      else ((s.projects p).basedir, (s.projects p).uuid) := by
  simp only [createproject]
  by_cases hp : p = s.projectCount
  · subst hp
    cases isUsage with
    | false => simp
    | true =>
        cases (s.solutions sln).named.lookup name with
        | none => simp
        | some q =>
            by_cases h : s.projectCount = q
            · subst h
              simp
            · simp [h]
  · cases isUsage with
    | false => simp [hp]
    | true =>
        cases (s.solutions sln).named.lookup name with
        | none => simp [hp]
        | some q =>
            by_cases h : p = q
            · subst h
              simp [hp]
            · simp [h, hp]

theorem keeps_createproject (host : Host) (s : Session) (name : Str) (sln : ℕ)
    (isUsage : Bool) : s.Keeps (s.createproject host name sln isUsage).1 := by
  refine Keeps.of le_rfl (Nat.le_succ _) le_rfl ?_ ?_ fun _ _ => rfl
  · exact fun i _ => createproject_basedir host s name sln isUsage i
  · intro p hp
    have h := createproject_projects host s name sln isUsage p
    rw [if_neg (Nat.ne_of_lt hp)] at h
    exact ⟨congrArg Prod.fst h, congrArg Prod.snd h⟩

theorem keeps_newSolution (host : Host) (s : Session) (name : Str) :
    s.Keeps (s.newSolution host name).1 := by
  refine Keeps.of (Nat.le_succ _) le_rfl le_rfl ?_ (fun _ _ => ⟨rfl, rfl⟩) fun _ _ => rfl
  intro i hi
  rw [newSolution]
  exact congrArg SolutionObj.basedir (Function.update_of_ne (Nat.ne_of_lt hi) _ _)

theorem keeps_call (host : Host) (s : Session) (c : Call) : s.Keeps (s.call host c) :=
  call_steps Keeps.refl Keeps.trans
    (fun _ _ => Keeps.of le_rfl le_rfl le_rfl (fun _ _ => rfl) (fun _ _ => ⟨rfl, rfl⟩)
      fun _ _ => rfl)
    (fun s c _ => keeps_addBlock s c _) (keeps_createproject host) (keeps_newSolution host) s c

def Current (s : Session) : Prop := ∀ b, s.currentConfiguration = some b → b < s.blockCount

theorem Current.call {s : Session} (h : s.Current) (host : Host) (c : Call) :
    (s.call host c).Current := by
  refine call_steps (R := fun s s' => s.Current → s'.Current) (fun _ h => h)
    (fun h h' hs => h' (h hs)) (fun _ _ h => h) ?_ (fun _ _ _ _ h => h) (fun _ _ h => h) s c h
  intro s c words _ b hb
  rw [addBlock_currentConfiguration] at hb
  obtain rfl := Option.some.inj hb
  simp

theorem exists_of_getobject {s : Session} (h : s.Invariant) (hcurrent : s.Current)
    {scope : Scope} {t : Holder} (ht : s.getobject scope = some t) : s.Exists t := by
  cases scope with
  | config =>
      obtain ⟨b, hb, rfl⟩ := Option.map_eq_some_iff.mp ht
      exact hcurrent b hb
  | container =>
      obtain ⟨c, hc, rfl⟩ := Option.map_eq_some_iff.mp ht
      exact h.container c hc
  | solution =>
      obtain ⟨i, hi, rfl⟩ := Option.map_eq_some_iff.mp ht
      exact lt_of_currentSolution h hi

theorem values_initialFields {s : Session} (h : s.Invariant) {t : Holder} (ht : s.Exists t)
    {f : Field} (hf : f.fieldKind.isText = false) (key : Str) :
    f.fieldKind.values key (s.initialFields t f) = [] := by
  have hbasedir : Field.basedir ≠ f := by
    rintro rfl
    cases hf
  rcases t with (i | p) | b
  · rw [initialFields]
    by_cases hc : Field.configurations = f
    · subst hc
      rw [Fields.set_self]
      rfl
    · rw [Fields.set_of_ne hc, Fields.set_of_ne hbasedir]
      exact f.fieldKind.values_none key
  · have huuid : Field.uuid ≠ f := by
      rintro rfl
      cases hf
    rw [initialFields, Fields.set_of_ne huuid, Fields.set_of_ne hbasedir]
    exact f.fieldKind.values_none key
  · obtain ⟨words, hwords⟩ := h.made b ht
    rw [initialFields, hwords, newBlock]
    split
    · exact f.fieldKind.values_none key
    · exact f.fieldKind.values_initial key

end Session

namespace Script

def after (s : Session) : Surroundings × Call → Session
  | (e, .session c) => s.call e.host c
  | (_, .field _ _) => s

def reaches (t : Holder) (f : Field) (key : Str) (s : Session) : Surroundings × Call → List Str
  | (_, .session _) => []
  | (e, .field g arg) =>
      if g = f ∧ s.getobject g.scope = some t then
        brought (g.allowed e.ord e.cwd) e key g.fieldKind arg
      else []

/-- The strings that calls bring to a field of an object, in their order. -/
def history (t : Holder) (f : Field) (key : Str) :
    Session → List (Surroundings × Call) → List Str
  | _, [] => []
  | s, c :: calls => reaches t f key s c ++ history t f key (after s c) calls

/-- The invariant of the calls: what has not been made has no fields, and a block that was made
with all its tables has them. -/
structure Invariant (st : Script) : Prop where
  session : st.session.Invariant
  current : st.session.Current
  unmade : ∀ t, ¬ st.session.Exists t → st.fields t = Fields.empty
  filled : ∀ b < st.session.blockCount, (st.session.initialFields (.block b)).Initialised →
    (st.fields (.block b)).Initialised

theorem invariant_empty : empty.Invariant where
  session := Session.invariant_empty
  current := by
    intro b hb
    cases hb
  unmade := fun _ _ => rfl
  filled := fun b hb => absurd hb (Nat.not_lt_zero b)

/-- What an accessor does to the fields: nothing, or one field of the current object is what the
setter leaves. -/
theorem accessor_fields (e : Surroundings) (st : Script) (f : Field) (arg : f.fieldKind.Arg) :
    (st.accessor e f arg).1.session = st.session ∧
      ((st.accessor e f arg).1 = st ∧ ((∃ err,
          setter (f.allowed e.ord e.cwd) e f.fieldKind arg = .error err) ∨
          st.session.getobject f.scope = none) ∨
        ∃ set t, setter (f.allowed e.ord e.cwd) e f.fieldKind arg = .ok set ∧
          st.session.getobject f.scope = some t ∧
          (st.accessor e f arg).1 = st.put t f (set (st.fields t f)).1) := by
  rw [accessor]
  cases hset : setter (f.allowed e.ord e.cwd) e f.fieldKind arg with
  | error err => exact ⟨rfl, Or.inl ⟨rfl, Or.inl ⟨err, rfl⟩⟩⟩
  | ok set =>
      cases ht : st.session.getobject f.scope with
      | none => exact ⟨rfl, Or.inl ⟨rfl, Or.inr rfl⟩⟩
      | some t => exact ⟨rfl, Or.inr ⟨set, t, rfl, rfl, rfl⟩⟩

theorem session_call (st : Script) (c : Surroundings × Call) :
    (st.call c).session = after st.session c := by
  obtain ⟨e, c | ⟨f, arg⟩⟩ := c
  · rfl
  · exact (accessor_fields e st f arg).1

section Run

variable {st : Script} {t : Holder} {f : Field} {key : Str}

/-- What an accessor does to a field of an object: nothing, and then it brings nothing, or what
the setter of the field does. -/
theorem accessor_cases (e : Surroundings) (g : Field) (arg : g.fieldKind.Arg) (t : Holder)
    (f : Field) :
    ((st.call (e, .field g arg)).fields t f = st.fields t f ∧
        ∀ key, reaches t f key st.session (e, .field g arg) = []) ∨
      ∃ arg' set, setter (f.allowed e.ord e.cwd) e f.fieldKind arg' = .ok set ∧
        (st.call (e, .field g arg)).fields t f = (set (st.fields t f)).1 ∧
        ∀ key, reaches t f key st.session (e, .field g arg) =
          brought (f.allowed e.ord e.cwd) e key f.fieldKind arg' := by
  rw [Script.call]
  obtain ⟨-, ⟨heq, hno⟩ | ⟨set, u, hset, hu, heq⟩⟩ := accessor_fields e st g arg
  · refine Or.inl ⟨by rw [heq], fun key => ?_⟩
    rw [reaches]
    split
    · rename_i hreach
      rcases hno with ⟨err, herr⟩ | hnone
      · exact brought_of_error herr
      · rw [hnone] at hreach
        cases hreach.2
    · rfl
  · rw [heq, put]
    by_cases hreach : g = f ∧ st.session.getobject g.scope = some t
    · obtain ⟨rfl, ht⟩ := hreach
      obtain rfl := Option.some.inj (hu.symm.trans ht)
      refine Or.inr ⟨arg, set, hset, ?_, fun key => if_pos ⟨rfl, hu⟩⟩
      simp only [Function.update_self]
    · refine Or.inl ⟨?_, fun key => if_neg hreach⟩
      by_cases htu : t = u
      · subst htu
        have hfg : f ≠ g := fun heq => hreach ⟨heq.symm, hu⟩
        simp only [Function.update_self, Function.update_of_ne hfg]
      · simp only [Function.update_of_ne htu]

/-- A call of the session changes the fields of no object, but objects are made. -/
theorem session_cases (e : Surroundings) (c : Session.Call) (t : Holder) :
    (st.call (e, .session c)).fields t =
      if ¬ st.session.Exists t ∧ (st.session.call e.host c).Exists t then
        (st.session.call e.host c).initialFields t
      else st.fields t := rfl

theorem fields_made {c : Surroundings × Call} (hbefore : ¬ st.session.Exists t)
    (hafter : (st.call c).session.Exists t) :
    (st.call c).fields t = (st.call c).session.initialFields t := by
  obtain ⟨e, c | ⟨g, arg⟩⟩ := c
  · exact if_pos ⟨hbefore, hafter⟩
  · rw [session_call] at hafter
    exact absurd hafter hbefore

/-- What a call does to a list of an object: it brings some strings to the end. -/
theorem values_call (h : st.Invariant) (hf : f.fieldKind.isText = false)
    (c : Surroundings × Call) : f.fieldKind.values key ((st.call c).fields t f) =
      f.fieldKind.values key (st.fields t f) ++ reaches t f key st.session c := by
  obtain ⟨e, c | ⟨g, arg⟩⟩ := c
  · rw [reaches, List.append_nil, session_cases]
    split
    · rename_i hmade
      rw [h.unmade t hmade.1, Session.values_initialFields (h.session.call c) hmade.2 hf]
      exact (f.fieldKind.values_none key).symm
    · rfl
  · rcases accessor_cases e g arg t f with ⟨heq, hreach⟩ | ⟨arg', set, hset, heq, hreach⟩
    · rw [heq, hreach, List.append_nil]
    · rw [heq, hreach, values_setter hf hset]

/-- What a call does to a string of an object that has been made. -/
theorem text_call (hf : f.fieldKind.isText) (ht : st.session.Exists t)
    (c : Surroundings × Call) : (f.fieldKind.values key ((st.call c).fields t f)).head? =
      (reaches t f key st.session c).getLast?.or
        (f.fieldKind.values key (st.fields t f)).head? := by
  obtain ⟨e, c | ⟨g, arg⟩⟩ := c
  · rw [session_cases, if_neg fun hmade => hmade.1 ht]
    rfl
  · rcases accessor_cases e g arg t f with ⟨heq, hreach⟩ | ⟨arg', set, hset, heq, hreach⟩
    · rw [heq, hreach]
      rfl
    · rw [heq, hreach, text_setter hf hset]

theorem reaches_of_not_exists (h : st.Invariant) (ht : ¬ st.session.Exists t)
    (c : Surroundings × Call) : reaches t f key st.session c = [] := by
  obtain ⟨e, c | ⟨g, arg⟩⟩ := c
  · rfl
  · rw [reaches, if_neg]
    exact fun hreach => ht (Session.exists_of_getobject h.session h.current hreach.2)

theorem keeps_after (s : Session) (c : Surroundings × Call) : s.Keeps (after s c) := by
  obtain ⟨e, c | ⟨g, arg⟩⟩ := c
  · exact Session.keeps_call e.host s c
  · exact .refl s

theorem session_run (st : Script) (calls : List (Surroundings × Call)) :
    (st.run calls).session = calls.foldl after st.session := by
  induction calls generalizing st with
  | nil => rfl
  | cons c calls ih => exact (ih (st.call c)).trans (by rw [session_call, List.foldl_cons])

theorem keeps_foldl (s : Session) (calls : List (Surroundings × Call)) :
    s.Keeps (calls.foldl after s) := by
  induction calls generalizing s with
  | nil => exact .refl s
  | cons c calls ih => exact (keeps_after s c).trans (ih (after s c))

theorem Invariant.call (h : st.Invariant) (c : Surroundings × Call) :
    (st.call c).Invariant := by
  obtain ⟨e, c | ⟨f, arg⟩⟩ := c
  · refine ⟨h.session.call c, h.current.call e.host c, ?_, ?_⟩
    · intro t ht
      rw [session_cases, if_neg fun hmade => ht hmade.2]
      exact h.unmade t (mt ((Session.keeps_call e.host _ c).exist t) ht)
    · intro b hb hinitial
      by_cases hbefore : st.session.Exists (.block b)
      · rw [session_cases, if_neg fun hmade => hmade.1 hbefore]
        refine h.filled b hbefore ?_
        rw [← (Session.keeps_call e.host st.session c).fields _ hbefore]
        exact hinitial
      · rw [session_cases, if_pos ⟨hbefore, hb⟩]
        exact hinitial
  · have hsession : (st.call (e, .field f arg)).session = st.session :=
      (accessor_fields e st f arg).1
    refine ⟨hsession ▸ h.session, hsession ▸ h.current, ?_, ?_⟩
    · intro t ht
      rw [hsession] at ht
      rw [Script.call]
      obtain ⟨-, ⟨heq, -⟩ | ⟨set, u, -, hu, heq⟩⟩ := accessor_fields e st f arg
      · rw [heq]
        exact h.unmade t ht
      · have hne : t ≠ u := by
          rintro rfl
          exact ht (Session.exists_of_getobject h.session h.current hu)
        rw [heq, put]
        exact (Function.update_of_ne hne _ _).trans (h.unmade t ht)
    · intro b hb hinitial g hg
      rw [hsession] at hb hinitial
      have hold := h.filled b hb hinitial g hg
      rcases accessor_cases e f arg (.block b) g with ⟨heq, -⟩ | ⟨arg', set, hset, heq, -⟩
      · rw [heq]
        exact hold
      · rw [heq]
        exact isSome_setter hg hset _

theorem Invariant.run (h : st.Invariant) (calls : List (Surroundings × Call)) :
    (st.run calls).Invariant := by
  induction calls generalizing st with
  | nil => exact h
  | cons c calls ih => exact ih (h.call c)

theorem values_run (h : st.Invariant) (hf : f.fieldKind.isText = false)
    (calls : List (Surroundings × Call)) :
    f.fieldKind.values key ((st.run calls).fields t f) =
      f.fieldKind.values key (st.fields t f) ++ history t f key st.session calls := by
  induction calls generalizing st with
  | nil => exact (List.append_nil _).symm
  | cons c calls ih =>
      rw [history, ← List.append_assoc, ← values_call h hf, ← session_call]
      exact ih (h.call c)

/-- The strings of an object after a run: one that was made in the run starts with those that it
was made with. -/
theorem text_run (h : st.Invariant) (hf : f.fieldKind.isText)
    (calls : List (Surroundings × Call)) (ht : (st.run calls).session.Exists t) :
    (f.fieldKind.values key ((st.run calls).fields t f)).head? =
      (history t f key st.session calls).getLast?.or
        (f.fieldKind.values key (if st.session.Exists t then st.fields t f
          else (st.run calls).session.initialFields t f)).head? := by
  induction calls generalizing st with
  | nil => exact congrArg (fun v => (f.fieldKind.values key v).head?) (if_pos ht).symm
  | cons c calls ih =>
      have hkeeps := keeps_foldl (st.call c).session calls
      rw [← session_run] at hkeeps
      rw [history, List.getLast?_append, Option.or_assoc, ← session_call]
      refine (ih (h.call c) ht).trans (congrArg (Option.or _) ?_)
      by_cases hbefore : st.session.Exists t
      · have hafter : (st.call c).session.Exists t := by
          rw [session_call]
          exact (keeps_after _ c).exist t hbefore
        rw [if_pos hafter, if_pos hbefore, text_call hf hbefore]
      · rw [reaches_of_not_exists h hbefore, if_neg hbefore, List.getLast?_nil, Option.none_or]
        by_cases hafter : (st.call c).session.Exists t
        · have hinitial : ((st.call c).run calls).session.initialFields t =
              (st.call c).session.initialFields t := hkeeps.fields t hafter
          rw [if_pos hafter, fields_made hbefore hafter, ← hinitial]
          rfl
        · rw [if_neg hafter]
          rfl

end Run

/-- What a script leaves in the fields of its objects: a list has the strings that the calls
brought to it, and a string is the last one that was brought, or the one that the object was
made with. -/
structure Records (calls : List (Surroundings × Call)) (st : Script) : Prop where
  session : st.session = calls.foldl after .empty
  lists : ∀ t f key, f.fieldKind.isText = false →
    f.fieldKind.values key (st.fields t f) = history t f key .empty calls
  texts : ∀ t, st.session.Exists t → ∀ f key, f.fieldKind.isText →
    (f.fieldKind.values key (st.fields t f)).head? = (history t f key .empty calls).getLast?.or
      (f.fieldKind.values key (st.session.initialFields t f)).head?

section Started

variable {t : Holder} {f : Field} {key : Str} (calls : List (Surroundings × Call))

theorem lists_run (hf : f.fieldKind.isText = false) :
    f.fieldKind.values key ((empty.run calls).fields t f) = history t f key .empty calls := by
  rw [values_run invariant_empty hf calls]
  exact congrArg (· ++ _) (f.fieldKind.values_none key)

theorem texts_run (key : Str) (ht : (empty.run calls).session.Exists t) (hf : f.fieldKind.isText) :
    (f.fieldKind.values key ((empty.run calls).fields t f)).head? =
      (history t f key .empty calls).getLast?.or
        (f.fieldKind.values key ((empty.run calls).session.initialFields t f)).head? := by
  have hnot : ¬ Session.empty.Exists t := by
    rcases t with (i | p) | b <;> exact Nat.not_lt_zero _
  rw [text_run invariant_empty hf calls ht]
  exact congrArg (fun v => (history t f key .empty calls).getLast?.or
    (f.fieldKind.values key v).head?) (if_neg hnot)

/-- The fields of all objects are known from the calls that reach them. -/
theorem records_run : Records calls (empty.run calls) where
  session := session_run empty calls
  lists := fun _ _ _ hf => lists_run calls hf
  texts := fun _ ht _ key hf => texts_run calls key ht hf

end Started

end Script

section Settled

/-- The objects of a session were made with settled values. -/
def Session.Placed (s : Session) : Prop :=
  ∀ t, s.Exists t → ∀ (f : Field) (key : Str),
    ∀ v ∈ f.fieldKind.values key (s.initialFields t f), f.Settled v

/-- A step that keeps the objects has to look at the new ones only. -/
theorem Session.Placed.of_keeps {s s' : Session} (h : s.Placed) (hkeeps : s.Keeps s')
    (hnew : ∀ t, ¬ s.Exists t → s'.Exists t → ∀ (f : Field) (key : Str),
      ∀ v ∈ f.fieldKind.values key (s'.initialFields t f), f.Settled v) : s'.Placed := by
  intro t ht f key v hv
  by_cases hold : s.Exists t
  · rw [hkeeps.fields t hold] at hv
    exact h t hold f key v hv
  · exact hnew t hold ht f key v hv

theorem settled_set (dir : List Str) {g : Field} {w : g.fieldKind.Val} {f : Field} {key v : Str}
    (hset : ∀ v ∈ g.fieldKind.values key (some w), g.Settled v)
    (hv : v ∈ f.fieldKind.values key
      ((Fields.empty.set .basedir (currentdir dir)).set g w f)) : f.Settled v := by
  by_cases hg : g = f
  · subst hg
    rw [Fields.set_self] at hv
    exact hset v hv
  · rw [Fields.set_of_ne hg] at hv
    by_cases hbasedir : Field.basedir = f
    · subst hbasedir
      rw [Fields.set_self] at hv
      obtain rfl := List.mem_singleton.mp hv
      exact ⟨dir, Or.inl rfl⟩
    · rw [Fields.set_of_ne hbasedir] at hv
      rw [show Fields.empty f = none from rfl, FieldKind.values_none] at hv
      cases hv

theorem Session.Placed.call {s : Session} (h : s.Placed) (e : Surroundings) (c : Call) :
    (s.call e.host c).Placed := by
  refine call_steps (R := fun s s' => s.Placed → s'.Placed) (fun _ h => h)
    (fun h h' hs => h' (h hs)) (fun _ _ h => h) ?_ ?_ ?_ s c h
  · intro s c words h
    refine h.of_keeps (keeps_addBlock s c _) ?_
    rintro ((i | p) | b) hold hnew f key v hv
    · exact absurd (Nat.lt_of_lt_of_eq hnew (addBlock_solutionCount c _)) hold
    · exact absurd (Nat.lt_of_lt_of_eq hnew (addBlock_projectCount c _)) hold
    · have hb : b = s.blockCount := by
        have hlt := Nat.lt_of_lt_of_eq hnew (addBlock_blockCount c (newBlock words))
        exact Nat.le_antisymm (Nat.lt_succ_iff.mp hlt) (Nat.le_of_not_lt hold)
      rw [initialFields, addBlock_blocks, hb, Function.update_self, newBlock] at hv
      simp only at hv
      split at hv
      · rw [show Fields.empty f = none from rfl, FieldKind.values_none] at hv
        cases hv
      · rw [FieldKind.values_initial] at hv
        cases hv
  · intro s name sln isUsage h
    refine h.of_keeps (keeps_createproject e.host s name sln isUsage) ?_
    rintro ((i | p) | b) hold hnew f key v hv
    · exact absurd hnew hold
    · have hp : p = s.projectCount :=
        Nat.le_antisymm (Nat.lt_succ_iff.mp hnew) (Nat.le_of_not_lt hold)
      have hproject := createproject_projects e.host s name sln isUsage p
      rw [if_pos hp] at hproject
      obtain ⟨hbasedir, huuid⟩ := Prod.mk.inj hproject
      rw [initialFields, hbasedir, huuid] at hv
      refine settled_set e.dir ?_ hv
      intro w hw
      obtain rfl := List.mem_singleton.mp hw
      exact settled_uuid _
    · exact absurd hnew hold
  · intro s name h
    refine h.of_keeps (keeps_newSolution e.host s name) ?_
    rintro ((i | p) | b) hold hnew f key v hv
    · have hi : i = s.solutionCount :=
        Nat.le_antisymm (Nat.lt_succ_iff.mp hnew) (Nat.le_of_not_lt hold)
      rw [initialFields, newSolution, hi] at hv
      simp only [Function.update_self] at hv
      refine settled_set e.dir ?_ hv
      intro w hw
      cases hw
    · exact absurd hnew hold
    · exact absurd hnew hold

theorem mem_accepted {allowed : Option Allowed} {vs : List Str} {v : Str}
    (h : v ∈ (accepted allowed vs).1) : ∃ x, checkvalue x allowed = .ok v := by
  induction vs with
  | nil => cases h
  | cons x vs ih =>
      rw [accepted] at h
      cases hx : checkvalue x allowed with
      | error err =>
          rw [hx] at h
          cases h
      | ok w =>
          rw [hx] at h
          rcases List.mem_cons.mp h with rfl | h
          · exact ⟨x, hx⟩
          · exact ih h

theorem texts_map_text (l : List Str) : (Nested.list (l.map .text)).texts = l := by
  rw [Nested.texts_list, List.flatMap_map]
  exact List.flatMap_singleton' l

theorem placed_of_mem_matched {e : Surroundings} {wantfiles : Bool} {value : Given Nested}
    {v : Str} (h : v ∈ (matched e wantfiles value).toOption.elim [] Nested.texts) :
    IsPlaced v := by
  cases value with
  | value value =>
      rw [matched] at h
      cases hmakes : Api.makeabsolute e.disk e.dir wantfiles e.fuel value with
      | error err =>
          rw [hmakes] at h
          cases h
      | ok result =>
          rw [hmakes] at h
          rw [Except.toOption, Option.elim_some, texts_map_text] at h
          obtain ⟨x, -, rfl⟩ := Api.exists_of_makeabsolute hmakes h
          exact ⟨e.dir, Or.inr ⟨x, rfl⟩⟩
  | _ => cases h

theorem checked_of_mem_brought {allowed : Option Allowed} {e : Surroundings} {key : Str}
    {k : FieldKind} (hk : k ≠ .keyvalue ∧ k ≠ .keypath) {arg : k.Arg} {v : Str}
    (hv : v ∈ brought allowed e key k arg) :
    (k = .string ∨ k = .list) ∧ (∃ x, checkvalue x allowed = .ok v) ∨
      (k = .path ∨ k = .dirlist ∨ k = .filelist) ∧ IsPlaced v := by
  cases k with
  | string =>
      cases arg with
      | value s => exact Or.inl ⟨Or.inl rfl, mem_accepted hv⟩
      | _ => cases hv
  | list =>
      cases arg with
      | some value => exact Or.inl ⟨Or.inr rfl, mem_accepted hv⟩
      | none => cases hv
  | path =>
      cases arg with
      | value s =>
          obtain rfl := List.mem_singleton.mp hv
          exact Or.inr ⟨Or.inl rfl, e.dir, Or.inr ⟨s, rfl⟩⟩
      | _ => cases hv
  | dirlist => exact Or.inr ⟨Or.inr (Or.inl rfl), placed_of_mem_matched hv⟩
  | filelist => exact Or.inr ⟨Or.inr (Or.inr rfl), placed_of_mem_matched hv⟩
  | keyvalue => exact absurd rfl hk.1
  | keypath => exact absurd rfl hk.2

namespace Script

variable {t : Holder} {f : Field} {key v : Str}

theorem settled_of_mem_reaches (hf : f ≠ .vpaths) {s : Session} {c : Surroundings × Call}
    (hv : v ∈ reaches t f key s c) : f.Settled v := by
  have hkind : f.fieldKind ≠ .keyvalue ∧ f.fieldKind ≠ .keypath := by
    cases f <;> first | decide | exact absurd rfl hf
  obtain ⟨e, c | ⟨g, arg⟩⟩ := c
  · cases hv
  · rw [reaches] at hv
    split at hv
    · rename_i hreach
      obtain ⟨rfl, -⟩ := hreach
      rcases checked_of_mem_brought hkind hv with ⟨hk, x, hx⟩ | ⟨hk, hplaced⟩
      · exact settled_of_checkvalue hk hx
      · have hlinks : g ≠ .links := by
          rintro rfl
          rcases hk with h | h | h <;> cases h
        rw [Field.Settled, if_neg hlinks]
        rcases hk with h | h | h <;> rw [h] <;> exact hplaced
    · cases hv

theorem settled_of_mem_history (hf : f ≠ .vpaths) {s : Session}
    {calls : List (Surroundings × Call)} (hv : v ∈ history t f key s calls) : f.Settled v := by
  induction calls generalizing s with
  | nil => cases hv
  | cons c calls ih =>
      rcases List.mem_append.mp hv with hv | hv
      · exact settled_of_mem_reaches hf hv
      · exact ih hv

theorem placed_foldl {s : Session} (h : s.Placed) (calls : List (Surroundings × Call)) :
    (calls.foldl after s).Placed := by
  induction calls generalizing s with
  | nil => exact h
  | cons c calls ih =>
      obtain ⟨e, c | ⟨g, arg⟩⟩ := c
      · exact ih (h.call e c)
      · exact ih h

/-- Whatever a script does, also when its calls raise errors, every string in a field of an
object is one that the check of the field returns, and would return again, or where the field has
paths, one that `path.getabsolute` has returned. -/
theorem settled_run (calls : List (Surroundings × Call)) (t : Holder) {f : Field}
    (hf : f ≠ .vpaths) (key : Str) :
    ∀ v ∈ f.fieldKind.values key ((empty.run calls).fields t f), f.Settled v := by
  have hplaced : (empty.run calls).session.Placed := by
    rw [session_run]
    refine placed_foldl ?_ calls
    rintro ((i | p) | b) ht <;> exact absurd ht (Nat.not_lt_zero _)
  intro v hv
  by_cases ht : (empty.run calls).session.Exists t
  · cases htext : f.fieldKind.isText with
    | false =>
        rw [lists_run calls htext] at hv
        exact settled_of_mem_history hf hv
    | true =>
        have hhead := texts_run calls key ht htext
        rw [FieldKind.head?_values htext hv] at hhead
        rcases Option.or_eq_some_iff.mp hhead.symm with hlast | ⟨-, hinitial⟩
        · exact settled_of_mem_history hf (List.mem_of_getLast? hlast)
        · exact hplaced t ht f key v (List.mem_of_head? hinitial)
  · rw [(invariant_empty.run calls).unmade t ht, show Fields.empty f = none from rfl,
      FieldKind.values_none] at hv
    cases hv

def bareDisk : Os.Disk where
  nodes := [([], .directory)]
  nodup := List.nodup_singleton _
  root := List.mem_singleton_self _
  closed := by
    intro e he hne
    rw [List.mem_singleton.mp he] at hne
    exact absurd rfl hne
  names := by
    intro e he n hn
    rw [List.mem_singleton.mp he] at hn
    cases hn

def scriptIn (dir : List String) : Surroundings where
  disk := bareDisk
  dir := dir.map String.toList
  random := fun _ _ => 0
  ord := .insertion
  fuel := 4

def listCall (f : Field) (h : f.fieldKind = .list) (vs : List String) : Call :=
  .field f (h ▸ some (Nested.list (vs.map fun v => .text v.toList)))

/-- A script with a solution and a project, whose last call comes to a flag that does not
exist. -/
def sampleScript : List (Surroundings × Call) :=
  [.session (.solution (some "Suite".toList)), listCall .configurations rfl ["Debug", "Release"],
    listCall .defines rfl ["SUITE"], .session (.project (some "Tool".toList)),
    .field .kind (.value "consoleapp".toList), .field .language (.value "c++".toList),
    listCall .defines rfl ["TOOL", "SUITE"],
    .session (.configuration (some (.string "Debug".toList))),
    listCall .defines rfl ["DEBUG", "TOOL"],
    listCall .flags rfl ["symbols", "optimise", "fast"]].map fun c => (scriptIn ["home"], c)

/-- The flags of the sample are stored in their own spelling, up to the one that does not
exist. -/
theorem settled_sampleScript :
    Field.flags.fieldKind.values [] ((empty.run sampleScript).fields (.block 2) .flags) =
        ["Symbols".toList, "Optimize".toList] ∧
      ∀ v ∈ Field.flags.fieldKind.values [] ((empty.run sampleScript).fields (.block 2) .flags),
        Field.flags.Settled v :=
  ⟨by decide +kernel, settled_run sampleScript (.block 2) (by decide) []⟩

end Script

end Settled

end Puremake
