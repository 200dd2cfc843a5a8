import Puremake.Escape.Basic
import Puremake.Lua.Nested

/-!
# XML escaping

`premake.esc` replaces seven characters by entities, one after the other and each in the output
of the ones before it. The ampersand, which all entities begin with, comes first, and no entity
has a character that is replaced after it. So each character is in effect looked at once, and
the seven entities can be read back.
-/

namespace Puremake

namespace Xml

/-- The characters in the order in which `premake.esc` replaces them, with their entities. -/
def entities : Escape.Escaping Char where
  entries := [('&', "&amp;".toList), ('"', "&quot;".toList), ('\x27', "&apos;".toList),
    ('<', "&lt;".toList), ('>', "&gt;".toList), ('\r', "&#x0D;".toList), ('\n', "&#x0A;".toList)]
  begins := by simp
  inOrder := by decide
  distinct := by decide

/-- `premake.esc` of a string. -/
def escText (value : Str) : Str := Escape.replaceAll entities.entries value

def esc (value : Nested) : Nested := value.map escText

/-- A text with the entities replaced by the characters that they stand for. -/
def unescape (s : Str) : Str := Escape.decode entities.entries s

theorem escText_eq (s : Str) : escText s = Escape.encode entities.entries s :=
  Escape.replaceAll_eq entities s

@[simp] theorem unescape_escText (s : Str) : unescape (escText s) = s := by
  rw [escText_eq]
  exact Escape.decode_encode entities s

theorem escText_injective : Function.Injective escText :=
  Function.LeftInverse.injective unescape_escText

/-- A character that is escaped and belongs to no entity is not in what is written. -/
theorem notMem_escText {c : Char} (hkey : c ∈ entities.entries.map Prod.fst)
    (hword : ∀ e ∈ entities.entries, c ∉ e.2) (s : Str) : c ∉ escText s := by
  rw [escText_eq]
  intro hc
  rcases Escape.mem_encode hc with ⟨h, -⟩ | ⟨e, he, h⟩
  · exact h hkey
  · exact hword e he h

/-- What `premake.esc` writes has no character that would end a text or an attribute, and no
ampersand that does not begin an entity; the entities read back give what was written; and
values that are written alike are the same. -/
theorem esc_roundtrip :
    (∀ s : Str, (∀ c ∈ ['<', '>', '"', '\x27', '\r', '\n'], c ∉ escText s) ∧
      (∀ pre post, escText s = pre ++ '&' :: post →
        ∃ e ∈ entities.entries, e.2 <+: '&' :: post) ∧
      unescape (escText s) = s) ∧
    Function.Injective escText ∧ Function.Injective esc := by
  refine ⟨fun s => ⟨fun c hc => ?_, fun pre post h => ?_, unescape_escText s⟩,
    escText_injective, Nested.map_injective escText_injective⟩
  · have hspecial : ∀ c ∈ ['<', '>', '"', '\x27', '\r', '\n'],
        c ∈ entities.entries.map Prod.fst ∧ ∀ e ∈ entities.entries, c ∉ e.2 := by
      simp [entities]
    exact notMem_escText (hspecial c hc).1 (hspecial c hc).2 s
  · rw [escText_eq] at h
    exact Escape.exists_word_of_encode (by decide) (by decide) h

end Xml

end Puremake
