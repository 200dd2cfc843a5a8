import Puremake.Path.Names

/-!
# Files by their extension

The functions of `path` that look at the extension of a file name, in lower case.
-/

namespace Puremake

namespace Path

def hasExtension (extensions : List String) (fname : Str) : Bool :=
  Str.lower (getextension fname) ∈ extensions.map String.toList

def iscfile (fname : Str) : Bool := hasExtension [".c", ".s", ".m"] fname

def iscppfile (fname : Str) : Bool :=
  hasExtension [".cc", ".cpp", ".cxx", ".c", ".s", ".m", ".mm"] fname

def iscppheader (fname : Str) : Bool := hasExtension [".h", ".hh", ".hpp", ".hxx"] fname

def isresourcefile (fname : Str) : Bool := hasExtension [".rc"] fname

section Extension

variable {fname : Str} {extensions extensions' : List String}

/-- An extension is in one of two lists that have none in common. -/
theorem hasExtension_disjoint (h : ∀ e ∈ extensions, e ∉ extensions')
    (hfname : hasExtension extensions fname) : hasExtension extensions' fname = false := by
  rw [hasExtension, decide_eq_true_eq] at hfname
  rw [hasExtension, decide_eq_false_iff_not]
  intro hfname'
  obtain ⟨e, he, heq⟩ := List.mem_map.mp hfname
  obtain ⟨e', he', heq'⟩ := List.mem_map.mp hfname'
  obtain rfl : e = e' := String.toList_injective (heq.trans heq'.symm)
  exact h e he he'

theorem isresourcefile_iff : isresourcefile fname = true ↔
    Str.lower (getextension fname) = ".rc".toList := by
  rw [isresourcefile, hasExtension, decide_eq_true_eq]
  exact List.mem_singleton

theorem not_isresourcefile_of_iscppfile (h : iscppfile fname) : isresourcefile fname = false :=
  hasExtension_disjoint (by decide) h

end Extension

end Path

end Puremake
