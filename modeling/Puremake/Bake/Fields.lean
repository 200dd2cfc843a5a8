import Puremake.Lua.Table
import Puremake.Path.Relative

/-!
# The API fields and how they are merged

`Field` lists the names of `premake.fields`, and `Field.kind` and the flags
below it are the metadata that baking reads. The values of an object are given
by `Fields`: a value of the right kind for every field that is set, so a list
can never stand where a string belongs.

A list is a Lua table with an array part and string keys: `mergefield` enters
each item under its own name as well, and looks there before it appends. The
keys are kept as they are written, since `adjustpaths` changes the array and
leaves the keys alone.
-/

namespace Puremake

inductive FieldKind
  | string
  | path
  | list
  | dirlist
  | filelist
  | keyvalue
  | keypath
  deriving DecidableEq, Repr

/-- The names in `premake.fields`. -/
inductive Field
  | basedir | buildaction | buildoptions | configurations | debugargs | debugdir
  | debugenvs | defines | deploymentoptions | excludes | files | flags | framework
  | imagepath | imageoptions | implibdir | implibextension | implibname | implibprefix
  | implibsuffix | includedirs | kind | language | libdirs | frameworkdirs | linkoptions
  | links | location | makesettings | objdir | pchheader | pchsource | platforms
  | postbuildcommands | prebuildcommands | prelinkcommands | resdefines | resincludedirs
  | resoptions | targetdir | targetextension | targetname | targetprefix | targetsuffix
  | trimpaths | uuid | uses | vpaths
  deriving DecidableEq, Repr

/-- All the names, as `pairs(premake.fields)` meets them in some order. -/
def Field.all : List Field :=
  [.basedir, .buildaction, .buildoptions, .configurations, .debugargs, .debugdir,
    .debugenvs, .defines, .deploymentoptions, .excludes, .files, .flags, .framework,
    .imagepath, .imageoptions, .implibdir, .implibextension, .implibname, Field.implibprefix,
    .implibsuffix, .includedirs, .kind, .language, .libdirs, .frameworkdirs, .linkoptions,
    .links, .location, .makesettings, .objdir, .pchheader, .pchsource, .platforms,
    .postbuildcommands, .prebuildcommands, .prelinkcommands, .resdefines, .resincludedirs,
    .resoptions, .targetdir, .targetextension, .targetname, Field.targetprefix,
    .targetsuffix, .trimpaths, .uuid, .uses, .vpaths]

theorem Field.mem_all (f : Field) : f ∈ Field.all := by
  cases f <;> decide

/-- `premake.fields[name].kind` -/
@[reducible] def Field.fieldKind : Field → FieldKind
  | .basedir | .debugdir | .imagepath | .implibdir | .location | .objdir | .pchsource
  | .targetdir => .path
  | .buildaction | .framework | .implibextension | .implibname | Field.implibprefix
  | .implibsuffix | .kind | .language | .pchheader | .targetextension | .targetname
  | Field.targetprefix | .targetsuffix | .uuid => .string
  | .includedirs | .libdirs | .frameworkdirs | .resincludedirs | .trimpaths => .dirlist
  | .excludes | .files => .filelist
  | .vpaths => .keypath
  | .buildoptions | .configurations | .debugargs | .debugenvs | .defines
  | .deploymentoptions | .flags | .imageoptions | .linkoptions | .links | .makesettings
  | .platforms | .postbuildcommands | .prebuildcommands | .prelinkcommands | .resdefines
  | .resoptions | .uses => .list

def Field.isflags (f : Field) : Bool := f = .flags

def Field.usagecopy : Field → Bool
  | .deploymentoptions | .flags | .includedirs => true
  | _ => false

def Field.linkagecopy : Field → Bool
  | .libdirs | .links => true
  | _ => false

/-- The paths that `adjustpaths` leaves as they are. -/
def Field.keeprelative : Field → Bool
  | .basedir | .location => true
  | _ => false

/-- A Lua table that is used as a list: its array part, and the string keys
that hold a value. -/
structure Tbl where
  arr : List Str
  keys : List Str
  deriving DecidableEq, Repr

namespace Tbl

def empty : Tbl := ⟨[], []⟩

/-- One item of `mergefield`: it is appended, and entered under its own name,
unless there is something under that name. -/
def add (t : Tbl) (item : Str) : Tbl :=
  if item ∈ t.keys then t else ⟨t.arr ++ [item], t.keys ++ [item]⟩

def insert (t : Tbl) (item : Str) : Tbl := ⟨t.arr ++ [item], t.keys⟩

/-- An assignment `t[key] = true`. -/
def setKey (t : Tbl) (key : Str) : Tbl := if key ∈ t.keys then t else ⟨t.arr, t.keys ++ [key]⟩

def mapArr (g : Str → Str) (t : Tbl) : Tbl := ⟨t.arr.map g, t.keys⟩

end Tbl

@[reducible] def FieldKind.Val : FieldKind → Type
  | .string | .path => Str
  | .list | .dirlist | .filelist => Tbl
  | .keyvalue | .keypath => List (Str × Tbl)

instance : ∀ k : FieldKind, DecidableEq k.Val
  | .string | .path => inferInstanceAs (DecidableEq Str)
  | .list | .dirlist | .filelist => inferInstanceAs (DecidableEq Tbl)
  | .keyvalue | .keypath => inferInstanceAs (DecidableEq (List (Str × Tbl)))

/-- What a new block holds in a field: an empty table, unless the field is a
string. -/
def FieldKind.initial : (k : FieldKind) → Option k.Val
  | .string | .path => none
  | .list | .dirlist | .filelist => some Tbl.empty
  | .keyvalue | .keypath => some []

abbrev Fields := ∀ f : Field, Option f.fieldKind.Val

namespace Fields

def empty : Fields := fun _ => none

def set (c : Fields) (f : Field) (v : f.fieldKind.Val) : Fields := fun g =>
  if h : f = g then some (h ▸ v) else c g

@[simp] theorem set_self (c : Fields) (f : Field) (v : f.fieldKind.Val) :
    c.set f v f = some v := by
  simp [set]

theorem set_of_ne {f g : Field} (h : f ≠ g) (c : Fields) (v : f.fieldKind.Val) :
    c.set f v g = c g := by
  simp [set, h]

theorem set_eq_self {c : Fields} {f : Field} {v : f.fieldKind.Val} (h : c f = some v) :
    c.set f v = c := by
  funext g
  by_cases hg : f = g
  · subst hg
    rw [set_self, h]
  · rw [set_of_ne hg]

end Fields

def Fields.Initialised (c : Fields) : Prop :=
  ∀ f : Field, f.fieldKind.initial.isSome → (c f).isSome

theorem Fields.Initialised.set {c : Fields} (h : c.Initialised) (f : Field)
    (v : f.fieldKind.Val) : (c.set f v).Initialised := by
  intro g hg
  by_cases hfg : f = g
  · subst hfg
    simp
  · rw [Fields.set_of_ne hfg]
    exact h g hg

/-- `mergefield` for the kinds that are lists. -/
def mergelist (dest : Option Tbl) (src : Tbl) : Tbl :=
  src.arr.foldl Tbl.add (dest.getD Tbl.empty)

/-- `mergefield`, and the assignment that stands in its place for a value that is
not a table. -/
def mergefield : (k : FieldKind) → Option k.Val → k.Val → k.Val
  | .string, _, src | .path, _, src => src
  | .list, dest, src | .dirlist, dest, src | .filelist, dest, src => mergelist dest src
  | .keyvalue, dest, src | .keypath, dest, src =>
      src.foldl (fun tbl (key, value) => assign key (mergelist (tbl.lookup key) value) tbl)
        (dest.getD [])

/-- The part of `mergeobject` that concerns the API fields. -/
def mergefields (dest src : Fields) : Fields := fun f =>
  match src f with
  | none => dest f
  | some v => some (mergefield f.fieldKind (dest f) v)

/-- What `adjustpaths` does to a value of each kind. -/
def adjustvalue (cwd location : Str) : (k : FieldKind) → k.Val → k.Val
  | .path, p => Path.getrelative cwd location p
  | .dirlist, t | .filelist, t => t.mapArr (Path.getrelative cwd location)
  | .keypath, t => t.map fun (key, v) => (key, v.mapArr (Path.getrelative cwd location))
  | .string, v => v
  | .list, v => v
  | .keyvalue, v => v

def adjustpaths (cwd location : Str) (obj : Fields) : Fields := fun f =>
  if f.keeprelative then obj f else (obj f).map (adjustvalue cwd location f.fieldKind)

section Pointwise

variable {dest dest' src src' : Fields} {f : Field}

/-- A field of the merged object depends on that field of the two objects. -/
theorem mergefields_congr (hdest : dest f = dest' f) (hsrc : src f = src' f) :
    mergefields dest src f = mergefields dest' src' f := by
  rw [mergefields, mergefields, hdest, hsrc]

theorem adjustpaths_congr {cwd location : Str} (h : dest f = dest' f) :
    adjustpaths cwd location dest f = adjustpaths cwd location dest' f := by
  rw [adjustpaths, adjustpaths, h]

theorem initialised_mergefields (h : dest.Initialised ∨ src.Initialised) :
    (mergefields dest src).Initialised := by
  intro f hf
  rw [mergefields]
  cases hsrc : src f with
  | some v => rfl
  | none =>
      rcases h with h | h
      · exact h f hf
      · have := h f hf
        rw [hsrc] at this
        cases this

theorem initialised_adjustpaths {cwd location : Str} (h : dest.Initialised) :
    (adjustpaths cwd location dest).Initialised := by
  intro f hf
  rw [adjustpaths]
  split
  · exact h f hf
  · rw [Option.isSome_map]
    exact h f hf

end Pointwise

end Puremake
