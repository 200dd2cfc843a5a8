import Puremake.Api.Session
import Puremake.Api.Checks

/-!
# The accessors of a script

`accessor` is the function behind `defines`, `kind`, `configurations` and the other names of
`premake.fields`. It turns its argument into the form of the field, looks for the object that
the scope of the field stands for, and changes that field of that object. A list only grows,
and a call that comes to a value it does not accept has stored the values before it.

`Script` keeps the fields of all objects beside the session that `solution`, `project`, `usage`
and `configuration` build.
-/

namespace Puremake

open Os (Disk currentdir)

/-- An argument: nothing, a value of the right type, or one of another type. -/
inductive Given (α : Type)
  | nil
  | value (a : α)
  | other (type : Str)

/-- `type(value)`, for what is not of the right type. -/
def Given.typeName {α : Type} : Given α → Str
  | .other type => type
  | _ => "nil".toList

structure KeyTable where
  entries : List (Str × Nested)
  nodup : (entries.map Prod.fst).Nodup

@[reducible] def FieldKind.Arg : FieldKind → Type
  | .string | .path => Given Str
  | .list => Option Nested
  | .dirlist | .filelist => Given Nested
  | .keyvalue | .keypath => Given KeyTable

/-- What a call finds: the disk, the working directory, the numbers that `math.random` gives,
the order of `pairs`, and the fuel of a search. -/
structure Surroundings where
  disk : Disk
  dir : List Str
  random : ℕ → Fin 8 → Fin 0x10000
  ord : PairsOrder
  fuel : ℕ

/-- `os.getcwd()` -/
def Surroundings.cwd (e : Surroundings) : Str := currentdir e.dir

/-- The functions that `createproject` calls. -/
def Surroundings.host (e : Surroundings) : Host := ⟨e.cwd, fun p => Os.uuid (e.random p)⟩

section Setters

variable (allowed : Option Allowed)

abbrev Left (α : Type) := Option α × Except AccessError Unit

def setstring (value : Option Str) (field : Option Str) : Left Str :=
  match value with
  | none => (field, .ok ())
  | some value =>
      match checkvalue value allowed with
      | .ok value => (some value, .ok ())
      | .error err => (field, .error err)

mutual

/-- `doinsert` in `premake.setarray`: the table that it leaves, and its error. -/
def doinsert (t : Tbl) : Nested → Tbl × Except AccessError Unit
  | .text value =>
      match checkvalue value allowed with
      | .ok value => (t.insert value, .ok ())
      | .error err => (t, .error err)
  | .list vs => doinsertAll t vs

/-- The loop in `doinsert`. -/
def doinsertAll (t : Tbl) : List Nested → Tbl × Except AccessError Unit
  | [] => (t, .ok ())
  | v :: vs =>
      match doinsert t v with
      | (t, .ok ()) => doinsertAll t vs
      | (t, .error err) => (t, .error err)

end

def setarray (value : Option Nested) (field : Option Tbl) : Left Tbl :=
  let t := field.getD Tbl.empty
  match value with
  | none => (some t, .ok ())
  | some value =>
      let (t, result) := doinsert allowed t value
      (some t, result)

mutual

def insertflat (t : Tbl) : Nested → Tbl
  | .text s => t.insert s
  | .list vs => insertflatAll t vs

def insertflatAll (t : Tbl) : List Nested → Tbl
  | [] => t
  | v :: vs => insertflatAll (insertflat t v) vs

end

def setkeyvalue (ord : PairsOrder) (values : Given KeyTable) (field : Option (List (Str × Tbl))) :
    Left (List (Str × Tbl)) :=
  let field := field.getD []
  match values with
  | .value values =>
      (some ((ord.enum values.entries).foldl (fun field (key, value) =>
        assign key (insertflat ((field.lookup key).getD Tbl.empty) value) field) field), .ok ())
  | _ => (some field, .error (.message "invalid value; table expected".toList))

/-- `domatchedarray`, up to its call of `premake.setarray`. -/
def matched (e : Surroundings) (wantfiles : Bool) : Given Nested → Except AccessError Nested
  | .value value =>
      match Api.makeabsolute e.disk e.dir wantfiles e.fuel value with
      | .ok result => .ok (.list (result.map .text))
      | .error err => .error (.search err)
  | value => .error (.message
      ("Invalid value in list: expected string, got ".toList ++ value.typeName))

/-- `accessor`, up to the call of a setter. -/
def setter (e : Surroundings) :
    (k : FieldKind) → k.Arg → Except AccessError (Option k.Val → Left k.Val)
  | .string, .nil => .ok (setstring allowed none)
  | .string, .value s => .ok (setstring allowed (some s))
  | .path, .nil => .ok (setstring none none)
  | .path, .value s => .ok (setstring none (some (Path.getabsolute e.cwd s)))
  | .string, .other _ | .path, .other _ => .error (.message "string value expected".toList)
  | .list, value => .ok (setarray allowed value)
  | .dirlist, value => (matched e false value).map fun v => setarray none (some v)
  | .filelist, value => (matched e true value).map fun v => setarray none (some v)
  | .keyvalue, values => .ok (setkeyvalue e.ord values)
  | .keypath, values => .ok (setkeyvalue e.ord values)

end Setters

inductive Holder
  | container (c : ContainerRef)
  | block (b : ℕ)
  deriving DecidableEq, Repr

def Session.Exists (s : Session) : Holder → Prop
  | .container c => s.Made c
  | .block b => b < s.blockCount

instance (s : Session) (c : ContainerRef) : Decidable (s.Made c) := by
  cases c <;> exact Nat.decLt _ _

instance (s : Session) (t : Holder) : Decidable (s.Exists t) := by
  cases t
  · exact inferInstanceAs (Decidable (s.Made _))
  · exact Nat.decLt _ _

def Session.initialFields (s : Session) : Holder → Fields
  | .container (.solution i) =>
      (Fields.empty.set .basedir (s.solutions i).basedir).set .configurations Tbl.empty
  | .container (.project p) =>
      (Fields.empty.set .basedir (s.projects p).basedir).set .uuid (s.projects p).uuid
  | .block b => (s.blocks b).fields

def Session.getobject (s : Session) : Scope → Option Holder
  | .container => s.currentContainer.map .container
  | .solution => s.currentSolution.map fun i => .container (.solution i)
  | .config => s.currentConfiguration.map .block

/-- The message of `premake.getobject`. -/
def Scope.missing : Scope → Str
  | .container => "no active solution or project".toList
  | .solution => "no active solution".toList
  | .config => "no active solution, project, or configuration".toList

structure Script where
  session : Session
  fields : Holder → Fields

namespace Script

def empty : Script := ⟨.empty, fun _ => Fields.empty⟩

def put (st : Script) (t : Holder) (f : Field) (v : Option f.fieldKind.Val) : Script :=
  { st with fields := Function.update st.fields t (Function.update (st.fields t) f v) }

/-- `accessor`: the state it leaves, and the field that it returns. -/
def accessor (e : Surroundings) (st : Script) (f : Field) (arg : f.fieldKind.Arg) :
    Script × Except AccessError (Option f.fieldKind.Val) :=
  match setter (f.allowed e.ord e.cwd) e f.fieldKind arg with
  | .error err => (st, .error err)
  | .ok set =>
      match st.session.getobject f.scope with
      | none => (st, .error (.message f.scope.missing))
      | some t =>
          let (v, result) := set (st.fields t f)
          (st.put t f v, result.map fun _ => v)

inductive Call
  | session (c : Session.Call)
  | field (f : Field) (arg : f.fieldKind.Arg)

/-- The state after a call, whether it returns or raises an error. An object that is made gets
its first fields. -/
def call (st : Script) : Surroundings × Call → Script
  | (e, .session c) =>
      let s := st.session.call e.host c
      ⟨s, fun t => if ¬ st.session.Exists t ∧ s.Exists t then s.initialFields t else st.fields t⟩
  | (e, .field f arg) => (st.accessor e f arg).1

def run (st : Script) (calls : List (Surroundings × Call)) : Script := calls.foldl call st

end Script

end Puremake
