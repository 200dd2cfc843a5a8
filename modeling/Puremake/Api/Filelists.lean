import Puremake.Os.Rmdir
import Puremake.Lua.Nested
import Puremake.Fuel.Basic
import Puremake.Path.Absolute
import Mathlib.Data.List.TakeWhile

/-!
# The fields that are lists of files

A script gives a field a string, or a list of strings and lists. A string without a star is
added to the field as an absolute path. A string with a star is a mask, and what it matches is
given to the same function again, which decides once more whether a string has a star: a name on
the disk that has one is taken for a mask itself. So the paths that are added are those of the
matches as long as no match has a star, and only then.
-/

namespace Puremake

namespace Api

open Fuel FoldRun
open Os (Disk MatchError)

/-- The function that a field searches the disk with: `os.matchfiles` or `os.matchdirs`. -/
def matchfunc (disk : Disk) (cwd : List Str) (wantfiles : Bool) :
    ℕ → List Str → Except MatchError (List Str) :=
  if wantfiles then Os.matchfiles disk cwd else Os.matchdirs disk cwd

variable (disk : Disk) (cwd : List Str) (wantfiles : Bool)

/-- `makeabsolute` in `domatchedarray`: the paths that it adds to the result. -/
def makeabsolute : ℕ → Nested → Except MatchError (List Str)
  | 0, _ => .error .outOfFuel
  | fuel + 1, .list items => do
    return (← items.mapM (makeabsolute fuel)).flatten
  | fuel + 1, .text value =>
    if '*' ∈ value then do
      makeabsolute fuel (.list ((← matchfunc disk cwd wantfiles fuel [value]).map .text))
    else .ok [Path.getabsolute (Os.currentdir cwd) value]

/-- `domatchedarray`: the field that it leaves behind. -/
def domatchedarray (fuel : ℕ) (field : List Str) (value : Nested) :
    Except MatchError (List Str) := do
  return field ++ (← makeabsolute disk cwd wantfiles fuel value)

def setfilearray : ℕ → List Str → Nested → Except MatchError (List Str) :=
  domatchedarray disk cwd true

def setdirarray : ℕ → List Str → Nested → Except MatchError (List Str) :=
  domatchedarray disk cwd false

/-- The search for a mask comes to an end and finds these paths. -/
def Finds (mask : Str) (ms : List Str) : Prop :=
  Yields (fun fuel => matchfunc disk cwd wantfiles fuel [mask]) ms

/-- What a string stands for, when the masks find what `found` says. -/
def portion (found : Str → List Str) (s : Str) : List Str :=
  if '*' ∈ s then (found s).map (Path.getabsolute (Os.currentdir cwd))
  else [Path.getabsolute (Os.currentdir cwd) s]

/-- The function comes to an end and appends, for each string, what it stands for, in order. -/
def Expands (field : List Str) (value : Nested) : Prop :=
  ∃ found, (∀ s ∈ value.texts, '*' ∈ s → Finds disk cwd wantfiles s (found s)) ∧
    (∀ s ∈ value.texts,
      Yields (fun fuel => makeabsolute disk cwd wantfiles fuel (.text s)) (portion cwd found s)) ∧
    Yields (fun fuel => domatchedarray disk cwd wantfiles fuel field value)
      (field ++ value.texts.flatMap (portion cwd found))

/-- The searches come to an end, and none of the paths that they find has a star. -/
def Searchable (value : Nested) : Prop :=
  ∀ s ∈ value.texts, '*' ∈ s →
    ∃ ms, Finds disk cwd wantfiles s ms ∧ ∀ m ∈ ms, '*' ∉ m

variable {disk cwd wantfiles}

section Search

theorem matchfunc_singleton (fuel : ℕ) (mask : Str) :
    matchfunc disk cwd wantfiles fuel [mask] = Os.domatch disk cwd fuel mask wantfiles := by
  cases wantfiles with
  | true =>
      show Os.matchfiles disk cwd fuel [mask] = _
      rw [Os.matchfiles, List.mapM_cons, List.mapM_nil]
      cases Os.domatch disk cwd fuel mask true with
      | error e => rfl
      | ok l => simp [bind, Except.bind, pure, Except.pure]
  | false =>
      show Os.matchdirs disk cwd fuel [mask] = _
      rw [Os.matchdirs, List.mapM_cons, List.mapM_nil]
      cases Os.domatch disk cwd fuel mask false with
      | error e => rfl
      | ok l => simp [bind, Except.bind, pure, Except.pure]

/-- The paths that a search finds are put together by `path.join`. -/
theorem normalized_of_visitFile {mask b n : Str} {m : Os.Search} {own : List Str}
    (h : Os.visitFile disk cwd mask wantfiles b m n = .ok own) {p : Str} (hp : p ∈ own) :
    p = Path.join [some b, some n] := by
  rw [Os.visitFile] at h
  split at h
  · simp only at h
    cases hm : Lua.matched mask (Path.join [some b, some n]) with
    | error e =>
        rw [hm] at h
        cases h
    | ok o =>
        rw [hm] at h
        simp only [Except.ok.injEq] at h
        subst h
        split at hp
        · exact List.mem_singleton.mp hp
        · cases hp
  · cases h
    cases hp

theorem normalized_of_matchwalker {recurse : Bool} {mask b : Str} {fuel : ℕ} {l : List Str}
    (h : Os.matchwalker disk cwd recurse mask wantfiles fuel b = .ok l) {p : Str} (hp : p ∈ l) :
    ∃ t, p = Path.normalize t := by
  induction fuel generalizing b l with
  | zero => cases h
  | succ fuel ih =>
      rw [Os.matchwalker] at h
      obtain ⟨found, hfound, h⟩ := bind_eq_ok.mp h
      have hown : ∀ q ∈ found.flatten, ∃ t, q = Path.normalize t := by
        intro q hq
        obtain ⟨n, -, own, hown, hq⟩ := (mem_flatten_mapM hfound).mp hq
        exact ⟨_, normalized_of_visitFile hown hq⟩
      split at h
      · obtain ⟨below, hbelow, h⟩ := bind_eq_ok.mp h
        cases h
        rcases List.mem_append.mp hp with hp | hp
        · exact hown p hp
        · obtain ⟨n, -, sub, hsub, hp⟩ := (mem_flatten_mapM hbelow).mp hp
          split at hsub
          · cases hsub
            cases hp
          · exact ih hsub hp
      · cases h
        exact hown p hp

/-- A path that is found keeps its stars when it is made absolute. -/
theorem star_of_finds {mask : Str} {ms : List Str} (h : Finds disk cwd wantfiles mask ms)
    {m : Str} (hm : m ∈ ms) (hstar : '*' ∈ m) : '*' ∈ Path.getabsolute (Os.currentdir cwd) m := by
  obtain ⟨n, hn⟩ := h
  have hfound := (matchfunc_singleton n mask).symm.trans (hn n (Nat.le_refl n))
  obtain ⟨t, rfl⟩ := normalized_of_matchwalker hfound hm
  exact Path.mem_getabsolute_normalize (Os.read_currentdir cwd) (by decide) (by decide) hstar

end Search

section Necessary

/-- All paths that are added are absolute paths of strings without a star. -/
theorem exists_of_makeabsolute {fuel : ℕ} {value : Nested} {l : List Str}
    (h : makeabsolute disk cwd wantfiles fuel value = .ok l) {p : Str} (hp : p ∈ l) :
    ∃ s, '*' ∉ s ∧ p = Path.getabsolute (Os.currentdir cwd) s := by
  induction fuel generalizing value l with
  | zero => cases h
  | succ fuel ih =>
      cases value with
      | list items =>
          rw [makeabsolute] at h
          obtain ⟨ls, hls, h⟩ := bind_eq_ok.mp h
          cases h
          obtain ⟨v, -, part, hpart, hp⟩ := (mem_flatten_mapM hls).mp hp
          exact ih hpart hp
      | text value =>
          rw [makeabsolute] at h
          split at h
          · obtain ⟨ms, -, h⟩ := bind_eq_ok.mp h
            exact ih h hp
          · rename_i hstar
            cases h
            exact ⟨value, hstar, List.mem_singleton.mp hp⟩

theorem not_star_currentdir (hcwd : ∀ n ∈ cwd, '*' ∉ n) : '*' ∉ Os.currentdir cwd := by
  intro h
  rcases List.mem_cons.mp h with h | h
  · cases h
  · obtain ⟨n, hn, hmem⟩ := (mem_concat h).resolve_left (by decide)
    exact hcwd n hn hmem

/-- When what is added is what the masks match, no match has a star. -/
theorem searchable_of_expands {field : List Str} {value : Nested} (hcwd : ∀ n ∈ cwd, '*' ∉ n)
    (h : Expands disk cwd wantfiles field value) : Searchable disk cwd wantfiles value := by
  obtain ⟨found, hfound, heach, -⟩ := h
  intro s hs hstar
  refine ⟨found s, hfound s hs hstar, fun m hm hmem => ?_⟩
  obtain ⟨n, hn⟩ := heach s hs
  have hpath : Path.getabsolute (Os.currentdir cwd) m ∈ portion cwd found s := by
    rw [portion, if_pos hstar]
    exact List.mem_map_of_mem hm
  obtain ⟨x, hx, heq⟩ := exists_of_makeabsolute (hn n (Nat.le_refl n)) hpath
  have hstars := star_of_finds (hfound s hs hstar) hm hmem
  rw [heq] at hstars
  rcases Path.mem_of_mem_getabsolute (Os.read_currentdir cwd) (by decide) hstars with h | h
  · exact not_star_currentdir hcwd h
  · exact hx h

end Necessary

section Sufficient

theorem yields_list {items : List Nested} {g : Nested → List Str}
    (h : ∀ v ∈ items, Yields (fun fuel => makeabsolute disk cwd wantfiles fuel v) (g v)) :
    Yields (fun fuel => makeabsolute disk cwd wantfiles fuel (.list items)) (items.flatMap g) :=
  (yields_succ_iff fun _ => rfl).mpr (Yields.flatMapM h)

theorem yields_text {s : Str} (hs : '*' ∉ s) :
    Yields (fun fuel => makeabsolute disk cwd wantfiles fuel (.text s))
      [Path.getabsolute (Os.currentdir cwd) s] :=
  (yields_succ_iff fun _ => if_neg hs).mpr (yields_ok _)

/-- A mask whose matches have no star adds the paths of its matches. -/
theorem yields_mask {s : Str} {ms : List Str} (hs : '*' ∈ s)
    (hfinds : Finds disk cwd wantfiles s ms) (hms : ∀ m ∈ ms, '*' ∉ m) :
    Yields (fun fuel => makeabsolute disk cwd wantfiles fuel (.text s))
      (ms.map (Path.getabsolute (Os.currentdir cwd))) := by
  have hlist : Yields (fun fuel => makeabsolute disk cwd wantfiles fuel (.list (ms.map .text)))
      (ms.map (Path.getabsolute (Os.currentdir cwd))) := by
    have hitems := @yields_list disk cwd wantfiles (ms.map .text)
      (fun v => v.texts.map (Path.getabsolute (Os.currentdir cwd))) fun v hv => by
        obtain ⟨m, hm, rfl⟩ := List.mem_map.mp hv
        exact yields_text (hms m hm)
    have heq : ms.flatMap (fun m =>
          (Nested.text m).texts.map (Path.getabsolute (Os.currentdir cwd))) =
        ms.map (Path.getabsolute (Os.currentdir cwd)) := List.map_eq_flatMap.symm
    rw [List.flatMap_map, heq] at hitems
    exact hitems
  exact (yields_succ_iff fun _ => if_pos hs).mpr (hfinds.bind hlist)

theorem yields_value {g : Str → List Str} (value : Nested)
    (h : ∀ s ∈ value.texts,
      Yields (fun fuel => makeabsolute disk cwd wantfiles fuel (.text s)) (g s)) :
    Yields (fun fuel => makeabsolute disk cwd wantfiles fuel value) (value.texts.flatMap g) := by
  induction value using Nested.nested_induction with
  | htext s => simpa [Nested.texts] using h s (by simp [Nested.texts])
  | hlist vs ih =>
      rw [Nested.texts_list] at h ⊢
      rw [List.flatMap_assoc]
      exact yields_list fun v hv =>
        ih v hv fun s hs => h s (List.mem_flatMap.mpr ⟨v, hv, hs⟩)

/-- When no match has a star, what is added is what the masks match. -/
theorem expands_of_searchable {field : List Str} {value : Nested}
    (h : Searchable disk cwd wantfiles value) : Expands disk cwd wantfiles field value := by
  choose! found hfound hnone using h
  have heach : ∀ s ∈ value.texts, Yields
      (fun fuel => makeabsolute disk cwd wantfiles fuel (.text s)) (portion cwd found s) := by
    intro s hs
    rw [portion]
    split
    · rename_i hstar
      exact yields_mask hstar (hfound s hs hstar) (hnone s hs hstar)
    · rename_i hstar
      exact yields_text hstar
  exact ⟨found, hfound, heach, (yields_value value heach).bind (yields_ok _)⟩

end Sufficient

section Plain

theorem matchwalker_succ {recurse : Bool} {mask : Str} {fuel : ℕ} {b : Str} {l : List Str}
    (h : Os.matchwalker disk cwd recurse mask wantfiles fuel b = .ok l) :
    Os.matchwalker disk cwd recurse mask wantfiles (fuel + 1) b = .ok l := by
  induction fuel generalizing b l with
  | zero => cases h
  | succ fuel ih =>
      rw [Os.matchwalker] at h ⊢
      obtain ⟨found, hfound, h⟩ := bind_eq_ok.mp h
      refine bind_eq_ok.mpr ⟨found, hfound, ?_⟩
      by_cases hrec : recurse = true
      · rw [if_pos hrec] at h ⊢
        obtain ⟨below, hbelow, h⟩ := bind_eq_ok.mp h
        refine bind_eq_ok.mpr ⟨below, mapM_eq_ok.mpr ?_, h⟩
        refine (mapM_eq_ok.mp hbelow).imp fun n sub hsub => ?_
        split at hsub
        · rename_i hskip
          rw [if_pos hskip]
          exact hsub
        · rename_i hskip
          rw [if_neg hskip]
          exact ih hsub
      · rw [if_neg hrec] at h ⊢
        exact h

/-- The search for a mask that is read as it is written comes to an end. -/
theorem exists_finds {mask : Str} (h : Os.Readable disk cwd (Os.trimMask mask)) :
    ∃ ms, Finds disk cwd true mask ms ∧ ∀ p ∈ ms,
      ∃ d, Os.Hit disk (Os.hasStars (Os.trimMask mask)) (Os.trimMask mask)
        (Path.settled (Os.basedirOf (Os.trimMask mask))) d p := by
  obtain ⟨fuel₀, hspec⟩ := Os.matchfiles_spec h
  obtain ⟨ms, hms, -, hmem⟩ := hspec fuel₀ (Nat.le_refl _)
  refine ⟨ms, ⟨fuel₀, fun fuel hfuel => ?_⟩, fun p hp => ?_⟩
  · replace hms : matchfunc disk cwd true fuel₀ [mask] = .ok ms := hms
    show matchfunc disk cwd true fuel [mask] = .ok ms
    rw [matchfunc_singleton] at hms ⊢
    induction fuel, hfuel using Nat.le_induction with
    | base => exact hms
    | succ fuel _ ih => exact matchwalker_succ ih
  · obtain ⟨d, -, hhit⟩ := (hmem p).mp hp
    exact ⟨d, hhit⟩

theorem mem_of_mem_settled {p q : Str} (hq : q ∈ Path.settled p) {x : Char} (hx : x ∈ q) :
    x ∈ p := by
  rcases List.mem_append.mp hq with hq | hq
  · obtain ⟨a, ha, rfl⟩ := List.mem_map.mp hq
    exact Path.mem_of_mem_anchor (Option.mem_toList.mp ha) hx
  · exact Path.mem_of_mem_comps (UpWord.mem_of_mem_blind hq) hx

theorem not_star_basedirOf (mask : Str) : '*' ∉ Os.basedirOf mask := by
  have htext : '*' ∉ Os.literalText mask := fun h => by simpa using List.mem_takeWhile_imp h
  rcases Os.literal_cases mask with ⟨-, -, hbase⟩ | ⟨a, b, hab, -, -, hbase⟩
  · rw [hbase]
    decide
  · rw [hbase]
    split
    · decide
    · exact fun h => htext (hab ▸ List.mem_append_left _ h)

/-- On a disk whose names are appended as they are and have no star, a list of files gets what
its masks match, when they are read as they are written. -/
theorem expands_of_plain {field : List Str} {value : Nested}
    (hdisk : ∀ e ∈ disk.nodes, ∀ n ∈ e.1, Path.IsName n ∧ '*' ∉ n)
    (hmasks : ∀ s ∈ value.texts, '*' ∈ s → Unmagic false (Os.trimMask s)) :
    Expands disk cwd true field value := by
  refine expands_of_searchable fun s hs hstar => ?_
  have hbelow : ∀ recurse d, Os.PlainBelow recurse disk d :=
    Os.plainBelow_of_nodes fun e he n hn => (hdisk e he n hn).1
  obtain ⟨ms, hfinds, hhit⟩ :=
    @exists_finds disk cwd s ⟨hmasks s hs hstar, fun d _ => hbelow _ d⟩
  refine ⟨ms, hfinds, fun m hm hmem => ?_⟩
  obtain ⟨d, ns, f, rfl, hfile, -⟩ := hhit m hm
  obtain ⟨q, hq, hmem⟩ := (mem_concat hmem).resolve_left (by decide)
  rw [List.append_assoc] at hq hfile
  rcases List.mem_append.mp hq with hq | hq
  · exact not_star_basedirOf _ (mem_of_mem_settled hq hmem)
  · have hnode := Disk.kind?_eq_some_iff.mp hfile
    exact (hdisk _ hnode q (List.mem_append_right _ hq)).2 hmem

end Plain

/-- A field gets what its masks match when the searches come to an end and no path that they find
has a star; and below a current directory without a star, only then. -/
theorem expands_iff (disk : Disk) (cwd : List Str) (wantfiles : Bool) (field : List Str)
    (value : Nested) :
    (Searchable disk cwd wantfiles value → Expands disk cwd wantfiles field value) ∧
      ((∀ n ∈ cwd, '*' ∉ n) → Expands disk cwd wantfiles field value →
        Searchable disk cwd wantfiles value) :=
  ⟨expands_of_searchable, searchable_of_expands⟩

section Example

def starNodes : List (List Str × Os.Kind) := [([], .directory), (["*".toList], .file)]

theorem nodup_starNodes : (starNodes.map Prod.fst).Nodup := by decide

theorem root_mem_starNodes : ([], Os.Kind.directory) ∈ starNodes := by decide

theorem closed_starNodes :
    ∀ e ∈ starNodes, e.1 ≠ [] → (e.1.dropLast, Os.Kind.directory) ∈ starNodes := by decide

theorem names_starNodes : ∀ e ∈ starNodes, ∀ n ∈ e.1, Os.EntryName n := by decide

def starDisk : Disk :=
  ⟨starNodes, nodup_starNodes, root_mem_starNodes, closed_starNodes, names_starNodes⟩

theorem matchfunc_star (fuel : ℕ) :
    matchfunc starDisk [] true (fuel + 1) ["*".toList] = .ok ["*".toList] := by
  rfl

/-- The file is found, and taken for the mask that it was found with, again and again. -/
theorem outOfFuel_star (fuel : ℕ) :
    makeabsolute starDisk [] true fuel (.text "*".toList) = .error .outOfFuel ∧
      makeabsolute starDisk [] true fuel (.list [.text "*".toList]) = .error .outOfFuel := by
  induction fuel with
  | zero => exact ⟨rfl, rfl⟩
  | succ fuel ih =>
      obtain ⟨htext, hlist⟩ := ih
      constructor
      · rw [makeabsolute, if_pos (by decide)]
        cases fuel with
        | zero => rfl
        | succ fuel =>
            rw [matchfunc_star]
            exact hlist
      · rw [makeabsolute, List.mapM_cons, htext]
        rfl

/-- A script that asks for all the files of the directory does not come to an end. -/
theorem not_expands_star : ¬ Expands starDisk [] true [] (.text "*".toList) := by
  rintro ⟨found, -, heach, -⟩
  obtain ⟨n, hn⟩ := heach "*".toList (by simp [Nested.texts])
  have h := (outOfFuel_star n).1.symm.trans (hn n (Nat.le_refl n))
  cases h

end Example

end Api

end Puremake
