import Puremake.Lua.Str

/-!
# Strings and lists of strings

Some functions of the generators take a string or a table, and go through a table, however
deep it is, to the strings in it. The tables are lists; what `ipairs` does not reach is not
there.
-/

namespace Puremake

inductive Nested
  | text (s : Str)
  | list (vs : List Nested)

namespace Nested

mutual

def map (f : Str → Str) : Nested → Nested
  | text s => text (f s)
  | list vs => list (mapList f vs)

def mapList (f : Str → Str) : List Nested → List Nested
  | [] => []
  | v :: vs => v.map f :: mapList f vs

end

mutual

theorem eq_of_map_eq {f : Str → Str} (hf : Function.Injective f) :
    ∀ v w : Nested, v.map f = w.map f → v = w
  | text s, text t, h => by
      rw [map, map, Nested.text.injEq] at h
      rw [hf h]
  | text s, list ws, h => by
      rw [map, map] at h
      cases h
  | list vs, text t, h => by
      rw [map, map] at h
      cases h
  | list vs, list ws, h => by
      rw [map, map, Nested.list.injEq] at h
      rw [eq_of_mapList_eq hf vs ws h]

theorem eq_of_mapList_eq {f : Str → Str} (hf : Function.Injective f) :
    ∀ vs ws : List Nested, mapList f vs = mapList f ws → vs = ws
  | [], [], _ => rfl
  | [], w :: ws, h => by
      rw [mapList, mapList] at h
      cases h
  | v :: vs, [], h => by
      rw [mapList, mapList] at h
      cases h
  | v :: vs, w :: ws, h => by
      rw [mapList, mapList, List.cons.injEq] at h
      rw [eq_of_map_eq hf v w h.1, eq_of_mapList_eq hf vs ws h.2]

end

theorem map_injective {f : Str → Str} (hf : Function.Injective f) :
    Function.Injective (map f) := fun v w => eq_of_map_eq hf v w

mutual

/-- The strings of a value, in the order in which `ipairs` comes to them. -/
def texts : Nested → List Str
  | text s => [s]
  | list vs => textsList vs

def textsList : List Nested → List Str
  | [] => []
  | v :: vs => v.texts ++ textsList vs

end

theorem texts_list (vs : List Nested) : (list vs).texts = vs.flatMap texts := by
  rw [texts]
  induction vs with
  | nil => rfl
  | cons v vs ih => rw [textsList, ih, List.flatMap_cons]

section Induction

variable {motive : Nested → Prop}

mutual

/-- What holds of strings, and of a list when it holds of its members, holds of every value. -/
theorem nested_induction (htext : ∀ s, motive (text s))
    (hlist : ∀ vs, (∀ v ∈ vs, motive v) → motive (list vs)) : ∀ v : Nested, motive v
  | text s => htext s
  | list vs => hlist vs (nested_inductionList htext hlist vs)

theorem nested_inductionList (htext : ∀ s, motive (text s))
    (hlist : ∀ vs, (∀ v ∈ vs, motive v) → motive (list vs)) :
    ∀ vs : List Nested, ∀ v ∈ vs, motive v
  | [], _, hv => absurd hv List.not_mem_nil
  | w :: vs, v, hv => (List.mem_cons.mp hv).elim
      (fun h => h ▸ nested_induction htext hlist w) (nested_inductionList htext hlist vs v)

end

end Induction

end Nested

end Puremake
