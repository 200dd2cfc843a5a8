import Puremake.Lua.Nested
import Puremake.Path.Relative
import Mathlib.Data.List.TakeWhile

/-!
# Functions that were written in C

`path.translate` and `os.pathsearch` were functions of the host, and are written in Lua now. The
translation knows two separators and leaves a path alone when it is asked for another one. The
search takes one separator for a whole search string, where the host took whichever came next,
and it goes up to the length of its list of arguments, which is any border of the list when
there are gaps in it. Here it is found out where the old and the new functions agree.
-/

namespace Puremake

namespace Host

def cstring (s : Str) : Str := s.takeWhile (· ≠ '\x00')

def do_translate (sep : Char) : Str → Str
  | [] => []
  | ch :: value => (if ch = '/' ∨ ch = '\\' then sep else ch) :: do_translate sep value

/-- `path_translate` of a string -/
def path_translate (value : Str) (sep : Char) : Str :=
  cstring (do_translate sep (cstring value))

/-- `path_translate` of a list -/
def path_translateAll (values : List Str) (sep : Char) : List Str :=
  values.map fun value => path_translate value sep

/-- What `strchr` points at: the text from the first `c` on. -/
def strchr (c : Char) : Str → Option Str
  | [] => none
  | ch :: path => if ch = c then some (ch :: path) else strchr c path

/-- The closest separator, `;` or `:`. -/
def split (path : Str) : Option Str :=
  match strchr ';' path, strchr ':' path with
  | none, full => full
  | some semi, none => some semi
  | some semi, some full => if full.length < semi.length then some semi else some full

theorem strchr_eq_some {path rest : Str} {c : Char} (h : strchr c path = some rest) :
    ∃ piece t, path = piece ++ rest ∧ rest = c :: t ∧ c ∉ piece := by
  induction path with
  | nil => cases h
  | cons ch path ih =>
      rw [strchr] at h
      split at h
      · rename_i hch
        obtain rfl := Option.some.inj h
        exact ⟨[], path, rfl, hch ▸ rfl, List.not_mem_nil⟩
      · rename_i hch
        obtain ⟨piece, t, rfl, hrest, hnot⟩ := ih h
        refine ⟨ch :: piece, t, rfl, hrest, ?_⟩
        rw [List.mem_cons, not_or]
        exact ⟨fun heq => hch heq.symm, hnot⟩

theorem strchr_eq_none {path : Str} {c : Char} (h : strchr c path = none) : c ∉ path := by
  induction path with
  | nil => exact List.not_mem_nil
  | cons ch path ih =>
      rw [strchr] at h
      split at h
      · cases h
      · rename_i hch
        rw [List.mem_cons, not_or]
        exact ⟨fun heq => hch heq.symm, ih h⟩

def isSplit (c : Char) : Bool := c = ';' || c = ':'

theorem split_eq_some {path rest : Str} (h : split path = some rest) :
    ∃ piece d t, path = piece ++ d :: t ∧ rest = d :: t ∧ isSplit d ∧
      ∀ c ∈ piece, isSplit c = false := by
  have hpiece : ∀ {piece : Str}, ';' ∉ piece → ':' ∉ piece → ∀ c ∈ piece, isSplit c = false := by
    intro piece hsemi hfull c hc
    simp only [isSplit, Bool.or_eq_false_iff, decide_eq_false_iff_not]
    exact ⟨fun h => hsemi (h ▸ hc), fun h => hfull (h ▸ hc)⟩
  rw [split] at h
  cases hsemi : strchr ';' path with
  | none =>
      rw [hsemi] at h
      obtain ⟨piece, t, rfl, rfl, hfull⟩ := strchr_eq_some h
      have hnone := strchr_eq_none hsemi
      rw [List.mem_append, not_or] at hnone
      exact ⟨piece, ':', t, rfl, rfl, by decide, hpiece hnone.1 hfull⟩
  | some semi =>
      obtain ⟨piece, t, hpath, rfl, hnot⟩ := strchr_eq_some hsemi
      cases hfull : strchr ':' path with
      | none =>
          rw [hsemi, hfull] at h
          obtain rfl := Option.some.inj h
          have hnone := strchr_eq_none hfull
          rw [hpath, List.mem_append, not_or] at hnone
          exact ⟨piece, ';', t, hpath, rfl, by decide, hpiece hnot hnone.1⟩
      | some full =>
          obtain ⟨piece', t', hpath', rfl, hnot'⟩ := strchr_eq_some hfull
          rw [hsemi, hfull] at h
          simp only at h
          have hlength := congrArg List.length (hpath.symm.trans hpath')
          rw [List.length_append, List.length_append] at hlength
          split at h <;> obtain rfl := Option.some.inj h
          · have hstart : piece <+: piece' :=
              List.prefix_of_prefix_length_le ⟨_, hpath.symm⟩ ⟨_, hpath'.symm⟩ (by omega)
            exact ⟨piece, ';', t, hpath, rfl, by decide,
              hpiece hnot fun hc => hnot' (hstart.subset hc)⟩
          · have hstart : piece' <+: piece :=
              List.prefix_of_prefix_length_le ⟨_, hpath'.symm⟩ ⟨_, hpath.symm⟩ (by omega)
            exact ⟨piece', ':', t', hpath', rfl, by decide,
              hpiece (fun hc => hnot (hstart.subset hc)) hnot'⟩

theorem split_eq_none {path : Str} (h : split path = none) : ∀ c ∈ path, isSplit c = false := by
  rw [split] at h
  cases hsemi : strchr ';' path with
  | none =>
      rw [hsemi] at h
      intro c hc
      simp only [isSplit, Bool.or_eq_false_iff, decide_eq_false_iff_not]
      exact ⟨fun heq => strchr_eq_none hsemi (heq ▸ hc), fun heq => strchr_eq_none h (heq ▸ hc)⟩
  | some semi =>
      cases hfull : strchr ':' path with
      | none => simp [hsemi, hfull] at h
      | some full =>
          rw [hsemi, hfull] at h
          simp only at h
          split at h <;> cases h

/-- The pieces of a search string that `os_pathsearch` goes through. -/
def searchPieces (path : Str) : List Str :=
  match _h : split path with
  | some rest => path.take (path.length - rest.length) :: searchPieces rest.tail
  | none => [path]
termination_by path.length
decreasing_by
  obtain ⟨piece, d, t, rfl, rfl, -⟩ := split_eq_some ‹_›
  simp
  omega

theorem searchPieces_eq (path : Str) : searchPieces path = pieces isSplit path := by
  induction hn : path.length using Nat.strongRecOn generalizing path with
  | _ n ih =>
      subst hn
      rw [searchPieces]
      split
      · rename_i rest h
        obtain ⟨piece, d, t, rfl, rfl, hd, hpiece⟩ := split_eq_some h
        rw [pieces_append_sep hpiece hd, List.tail_cons, ih t.length (by simp; omega) t rfl]
        simp
      · rename_i h
        rw [pieces_of_forall_not_sep (split_eq_none h)]

/-- `os_pathsearch`, where the platform is not Windows -/
def os_pathsearch (isfile : Str → Bool) (name : Str) : List (Option Str) → Option Str
  | [] => none
  | none :: args => os_pathsearch isfile name args
  | some path :: args =>
      match (searchPieces (cstring path)).find? fun piece => isfile (piece ++ '/' :: name) with
      | some piece => some piece
      | none => os_pathsearch isfile name args

/-- `os_pathsearch` returns the first piece of all search strings with the file. -/
theorem os_pathsearch_eq (isfile : Str → Bool) (name : Str) (args : List (Option Str)) :
    os_pathsearch isfile name args =
      ((args.filterMap id).flatMap fun path => pieces isSplit (cstring path)).find? fun piece =>
        isfile (piece ++ '/' :: name) := by
  induction args with
  | nil => rfl
  | cons arg args ih =>
      cases arg with
      | none => exact ih
      | some path =>
          rw [os_pathsearch, searchPieces_eq, ih]
          simp only [List.filterMap_cons, id, List.flatMap_cons, List.find?_append]
          cases (pieces isSplit (cstring path)).find? fun piece => isfile (piece ++ '/' :: name) <;>
            rfl

section Translate

theorem cstring_of_notMem {s : Str} (h : '\x00' ∉ s) : cstring s = s := by
  refine List.takeWhile_eq_self_iff.mpr fun c hc => decide_eq_true ?_
  exact fun heq => h (heq ▸ hc)

theorem zero_notMem_cstring (s : Str) : '\x00' ∉ cstring s := by
  intro h
  have hne := List.mem_takeWhile_imp (p := fun c => decide (c ≠ '\x00')) h
  exact of_decide_eq_true hne rfl

theorem do_translate_eq (sep : Char) (value : Str) :
    do_translate sep value = value.map fun c => if c = '/' ∨ c = '\\' then sep else c := by
  induction value with
  | nil => rfl
  | cons c value ih => rw [do_translate, ih, List.map_cons]

end Translate

end Host

namespace Path

/-- `path.translate` of a list with an explicit separator. -/
def translateAll (a : Nested) (b : Char) : Nested := a.map fun v => translate v b

def replaceSeparators (sep : Char) (p : Str) : Str :=
  p.map fun c => if c = '/' ∨ c = '\\' then sep else c

/-- `path.translate` does with a path what the host did: it replaces every separator. -/
def Translates (sep : Char) (p : Str) : Prop :=
  translate p sep = Host.path_translate p sep ∧ translate p sep = replaceSeparators sep p

def TranslatesAll (sep : Char) (ps : List Str) : Prop :=
  translateAll (.list (ps.map .text)) sep =
      .list ((Host.path_translateAll ps sep).map .text) ∧
    translateAll (.list (ps.map .text)) sep = .list ((ps.map (replaceSeparators sep)).map .text)

/-- The separator is one of the two that paths are written with, or there is nothing to
replace. -/
def Translatable (sep : Char) (p : Str) : Prop :=
  '\x00' ∉ p ∧ (sep = '/' ∨ sep = '\\' ∨ '/' ∉ p ∧ '\\' ∉ p)

section Translate

variable {sep : Char} {p : Str}

theorem replaceSeparators_of_notMem (h : '/' ∉ p ∧ '\\' ∉ p) : replaceSeparators sep p = p := by
  rw [replaceSeparators]
  refine (List.map_congr_left fun c hc => if_neg ?_).trans (List.map_id p)
  rintro (rfl | rfl)
  · exact h.1 hc
  · exact h.2 hc

theorem translate_eq_replaceSeparators_iff : translate p sep = replaceSeparators sep p ↔
    sep = '/' ∨ sep = '\\' ∨ '/' ∉ p ∧ '\\' ∉ p := by
  by_cases hback : sep = '\\'
  · subst hback
    rw [translate, if_pos rfl, replaceSeparators]
    refine iff_of_true (List.map_congr_left fun c _ => ?_) (by simp)
    split <;> split <;> simp_all
  · by_cases hslash : sep = '/'
    · subst hslash
      rw [translate, if_neg (by decide), if_pos rfl, replaceSeparators]
      refine iff_of_true (List.map_congr_left fun c _ => ?_) (by simp)
      split <;> split <;> simp_all
    · rw [translate, if_neg hback, if_neg hslash]
      constructor
      · intro h
        have hsep : ∀ c ∈ p, ¬ (c = '/' ∨ c = '\\') := by
          intro c hc hmem
          have hfix := List.map_inj_left.mp (h.symm.trans (List.map_id p).symm) c hc
          rw [if_pos hmem] at hfix
          rcases hmem with rfl | rfl
          · exact hslash hfix
          · exact hback hfix
        exact .inr (.inr ⟨fun hc => hsep _ hc (.inl rfl), fun hc => hsep _ hc (.inr rfl)⟩)
      · rintro (h | h | h)
        · exact absurd h hslash
        · exact absurd h hback
        · exact (replaceSeparators_of_notMem h).symm

theorem translates_iff_translatable : Translates sep p ↔ Translatable sep p := by
  rw [Translates, Translatable, translate_eq_replaceSeparators_iff]
  constructor
  · rintro ⟨hhost, hsep⟩
    refine ⟨fun hzero => ?_, hsep⟩
    rw [translate_eq_replaceSeparators_iff.mpr hsep] at hhost
    have hmem : '\x00' ∈ replaceSeparators sep p :=
      List.mem_map.mpr ⟨'\x00', hzero, if_neg (by decide)⟩
    rw [hhost] at hmem
    exact Host.zero_notMem_cstring _ hmem
  · rintro ⟨hzero, hsep⟩
    refine ⟨?_, hsep⟩
    have heq := translate_eq_replaceSeparators_iff.mpr hsep
    rw [heq, Host.path_translate, Host.cstring_of_notMem hzero, Host.do_translate_eq]
    refine (Host.cstring_of_notMem fun hmem => ?_).symm
    rcases hsep with rfl | rfl | hsep
    · obtain ⟨c, hc, hmap⟩ := List.mem_map.mp hmem
      split at hmap
      · exact absurd hmap (by decide)
      · exact hzero (hmap ▸ hc)
    · obtain ⟨c, hc, hmap⟩ := List.mem_map.mp hmem
      split at hmap
      · exact absurd hmap (by decide)
      · exact hzero (hmap ▸ hc)
    · change '\x00' ∈ replaceSeparators sep p at hmem
      rw [replaceSeparators_of_notMem hsep] at hmem
      exact hzero hmem

theorem mapList_text (f : Str → Str) (ps : List Str) :
    Nested.mapList f (ps.map .text) = (ps.map f).map .text := by
  induction ps with
  | nil => rfl
  | cons p ps ih => rw [List.map_cons, Nested.mapList, ih, Nested.map, List.map_cons, List.map_cons]

theorem translatesAll_iff {ps : List Str} :
    TranslatesAll sep ps ↔ ∀ p ∈ ps, Translates sep p := by
  have htext : Function.Injective Nested.text := fun s t h => Nested.text.inj h
  rw [TranslatesAll, translateAll, Nested.map, mapList_text, Nested.list.injEq, Nested.list.injEq,
    (List.map_injective_iff.mpr htext).eq_iff, (List.map_injective_iff.mpr htext).eq_iff,
    Host.path_translateAll, List.map_inj_left, List.map_inj_left, ← forall₂_and]
  rfl

end Translate

/-- `path.translate` agrees with the host exactly for the two separators of paths, and for paths
without any. -/
theorem translates_iff (sep : Char) : (∀ p, Translates sep p ↔ Translatable sep p) ∧
    ∀ ps, TranslatesAll sep ps ↔ ∀ p ∈ ps, Translatable sep p := by
  refine ⟨fun p => translates_iff_translatable, fun ps => ?_⟩
  rw [translatesAll_iff]
  exact forall₂_congr fun p _ => translates_iff_translatable

/-- The name of a resource of a C# project is made with the separator `.`. -/
theorem not_translates_dot : ¬ Translates '.' "Forms/Main".toList := by
  rw [translates_iff_translatable, Translatable]
  decide

end Path

namespace Os

/-- What a search string is cut at. The test for a drive letter compares a place with a text, and
comes to nothing. -/
def searchMode (p : Str) : Option Char :=
  if ';' ∈ p then some ';' else if ':' ∈ p then some ':' else none

def searchDirs (p : Str) : List Str :=
  match searchMode p with
  | some mode => pieces (fun c => c = mode) p
  | none => [p]

/-- `pmos.pathsearch`, where `#aa` is `border` for the list of the search strings. -/
def pathsearch (border : ℕ) (isfile : Str → Bool) (name : Str) (aa : List (Option Str)) :
    Option Str :=
  (((aa.take border).filterMap id).flatMap searchDirs).find? fun n => isfile (n ++ '/' :: name)

/-- What the length operator may return for a list with gaps: there is a value at the border, or
it is zero, and there is none behind it. -/
def IsBorder (aa : List (Option Str)) (n : ℕ) : Prop :=
  (n = 0 ∨ ∃ p, aa[n - 1]? = some (some p)) ∧ ∀ p, aa[n]? ≠ some (some p)

/-- `pmos.pathsearch` returns what the host did, whatever files there are. -/
def SearchesLikeHost (aa : List (Option Str)) : Prop :=
  ∀ border, IsBorder aa border → ∀ isfile name,
    pathsearch border isfile name aa = Host.os_pathsearch isfile name aa

/-- No search string has both separators, and all directories are named in front of the first
gap. -/
def Searchable (aa : List (Option Str)) : Prop :=
  (∀ p, some p ∈ aa → '\x00' ∉ p ∧ ¬ (';' ∈ p ∧ ':' ∈ p)) ∧
    ∀ p, some p ∈ aa → ∀ dir ∈ searchDirs p,
      ∃ q, some q ∈ aa.takeWhile Option.isSome ∧ dir ∈ searchDirs q

section Pathsearch

variable {aa : List (Option Str)} {p : Str}

def hostDirs (p : Str) : List Str := pieces Host.isSplit (Host.cstring p)

theorem hostDirs_eq (hzero : '\x00' ∉ p) (hboth : ¬ (';' ∈ p ∧ ':' ∈ p)) :
    hostDirs p = searchDirs p := by
  rw [hostDirs, Host.cstring_of_notMem hzero, searchDirs, searchMode]
  by_cases hsemi : ';' ∈ p
  · rw [if_pos hsemi]
    refine pieces_congr fun c hc => ?_
    have hcolon : c ≠ ':' := fun heq => hboth ⟨hsemi, heq ▸ hc⟩
    simp [Host.isSplit, hcolon]
  · rw [if_neg hsemi]
    have hne : ∀ c ∈ p, c ≠ ';' := fun c hc heq => hsemi (heq ▸ hc)
    by_cases hcolon : ':' ∈ p
    · rw [if_pos hcolon]
      refine pieces_congr fun c hc => ?_
      simp [Host.isSplit, hne c hc]
    · rw [if_neg hcolon]
      refine pieces_of_forall_not_sep fun c hc => ?_
      have hne' : c ≠ ':' := fun heq => hcolon (heq ▸ hc)
      simp [Host.isSplit, hne c hc, hne']

/-- A string that the two cut differently has a directory that the host does not find. -/
theorem exists_dir (h : '\x00' ∈ p ∨ ';' ∈ p ∧ ':' ∈ p) :
    ∃ dir ∈ searchDirs p, '\x00' ∈ dir ∨ ':' ∈ dir := by
  rw [searchDirs]
  rcases h with hzero | ⟨hsemi, hcolon⟩
  · cases hmode : searchMode p with
    | none => exact ⟨p, List.mem_singleton_self p, .inl hzero⟩
    | some mode =>
        have hne : '\x00' ≠ mode := by
          rintro rfl
          rw [searchMode] at hmode
          split at hmode
          · exact absurd hmode (by decide)
          · split at hmode <;> exact absurd hmode (by decide)
        rw [← @concat_pieces mode p] at hzero
        obtain ⟨dir, hdir, hmem⟩ := (mem_concat hzero).resolve_left hne
        exact ⟨dir, hdir, .inl hmem⟩
  · rw [searchMode, if_pos hsemi]
    rw [← @concat_pieces ';' p] at hcolon
    obtain ⟨dir, hdir, hmem⟩ := (mem_concat hcolon).resolve_left (by decide)
    exact ⟨dir, hdir, .inr hmem⟩

theorem notMem_hostDirs {dir : Str} (h : dir ∈ hostDirs p) : '\x00' ∉ dir ∧ ':' ∉ dir := by
  refine ⟨fun hc => Host.zero_notMem_cstring p (mem_of_mem_pieces h hc), fun hc => ?_⟩
  have := isSep_of_mem_pieces h ':' hc
  simp [Host.isSplit] at this

theorem searchesLikeHost_eq (border : ℕ) (isfile : Str → Bool) (name : Str) :
    pathsearch border isfile name aa = Host.os_pathsearch isfile name aa ↔
      (((aa.take border).filterMap id).flatMap searchDirs).find?
          (fun n => isfile (n ++ '/' :: name)) =
        ((aa.filterMap id).flatMap hostDirs).find? (fun n => isfile (n ++ '/' :: name)) := by
  rw [pathsearch, Host.os_pathsearch_eq]
  rfl

theorem mem_dirs {f : Str → List Str} {dir : Str} : dir ∈ (aa.filterMap id).flatMap f ↔
    ∃ p, some p ∈ aa ∧ dir ∈ f p := by
  simp [List.mem_flatMap, List.mem_filterMap]

/-- When the two always find the same, they go through the same directories. -/
theorem SearchesLikeHost.mem_iff (h : SearchesLikeHost aa) {border : ℕ}
    (hborder : IsBorder aa border) (dir : Str) :
    (∃ p, some p ∈ aa.take border ∧ dir ∈ searchDirs p) ↔
      ∃ p, some p ∈ aa ∧ dir ∈ hostDirs p := by
  have hfind := (searchesLikeHost_eq border (· = dir ++ ['/']) []).mp (h border hborder _ _)
  have hiff := congrArg Option.isSome hfind
  rw [Bool.eq_iff_iff, List.find?_isSome, List.find?_isSome] at hiff
  rw [← mem_dirs, ← mem_dirs]
  simpa using hiff

theorem IsBorder.cons {border : ℕ} (h : IsBorder aa border) {x : Option Str}
    (hx : border = 0 → x.isSome) : IsBorder (x :: aa) (border + 1) := by
  obtain ⟨hat, hbehind⟩ := h
  refine ⟨.inr ?_, fun p => by rw [List.getElem?_cons_succ]; exact hbehind p⟩
  cases border with
  | zero =>
      obtain ⟨p, rfl⟩ := Option.isSome_iff_exists.mp (hx rfl)
      exact ⟨p, rfl⟩
  | succ n => exact hat.resolve_left (Nat.succ_ne_zero n)

theorem isBorder_takeWhile (aa : List (Option Str)) :
    IsBorder aa (aa.takeWhile Option.isSome).length := by
  induction aa with
  | nil => exact ⟨.inl rfl, fun p h => by cases h⟩
  | cons x aa ih =>
      cases x with
      | none => exact ⟨.inl rfl, fun p h => by cases h⟩
      | some p => exact ih.cons fun _ => rfl

theorem exists_border (h : some p ∈ aa) :
    ∃ border, IsBorder aa border ∧ some p ∈ aa.take border := by
  induction aa with
  | nil => cases h
  | cons x aa ih =>
      rcases List.mem_cons.mp h with rfl | h
      · exact ⟨_, isBorder_takeWhile _, List.mem_cons_self⟩
      · obtain ⟨border, hborder, hmem⟩ := ih h
        refine ⟨border + 1, hborder.cons ?_, List.mem_cons_of_mem _ hmem⟩
        rintro rfl
        cases hmem

theorem takeWhile_prefix_take {border : ℕ} (h : IsBorder aa border) :
    aa.takeWhile Option.isSome <+: aa.take border := by
  induction aa generalizing border with
  | nil => exact List.nil_prefix
  | cons x aa ih =>
      cases x with
      | none => exact List.nil_prefix
      | some p =>
          cases border with
          | zero => exact absurd rfl (h.2 p)
          | succ n =>
              refine List.cons_prefix_cons.mpr ⟨rfl, ?_⟩
              by_cases hn : n = 0
              · subst hn
                have hnone := h.2
                cases aa with
                | nil => exact List.nil_prefix
                | cons y aa =>
                    cases y with
                    | none => exact List.nil_prefix
                    | some q => exact absurd rfl (hnone q)
              · obtain ⟨k, rfl⟩ := Nat.exists_eq_succ_of_ne_zero hn
                exact ih ⟨.inr (h.1.resolve_left (Nat.succ_ne_zero _)), h.2⟩

theorem Searchable.flatMap_hostDirs (h : Searchable aa) :
    (aa.filterMap id).flatMap hostDirs = (aa.filterMap id).flatMap searchDirs := by
  refine List.flatMap_congr fun p hp => ?_
  have hmem : some p ∈ aa := by simpa using hp
  exact hostDirs_eq (h.1 p hmem).1 (h.1 p hmem).2

end Pathsearch

/-- The search finds what the host found exactly when no search string has both separators, and
no directory is named only behind a gap. -/
theorem searchesLikeHost_iff (aa : List (Option Str)) : SearchesLikeHost aa ↔ Searchable aa := by
  constructor
  · intro h
    have hboth : ∀ p, some p ∈ aa → '\x00' ∉ p ∧ ¬ (';' ∈ p ∧ ':' ∈ p) := by
      intro p hp
      rw [← not_or]
      intro hbad
      obtain ⟨border, hborder, hmem⟩ := exists_border hp
      obtain ⟨dir, hdir, hchar⟩ := exists_dir hbad
      obtain ⟨q, -, hq⟩ := (h.mem_iff hborder dir).mp ⟨p, hmem, hdir⟩
      obtain ⟨hzero, hcolon⟩ := notMem_hostDirs hq
      exact hchar.elim hzero hcolon
    refine ⟨hboth, fun p hp dir hdir => ?_⟩
    rw [← hostDirs_eq (hboth p hp).1 (hboth p hp).2] at hdir
    obtain ⟨q, hq, hqdir⟩ := (h.mem_iff (isBorder_takeWhile aa) dir).mpr ⟨p, hp, hdir⟩
    refine ⟨q, ?_, hqdir⟩
    rwa [← List.prefix_iff_eq_take.mp (List.takeWhile_prefix _)] at hq
  · intro h border hborder isfile name
    rw [searchesLikeHost_eq, h.flatMap_hostDirs]
    have hsplit : aa.filterMap id =
        (aa.take border).filterMap id ++ (aa.drop border).filterMap id := by
      rw [← List.filterMap_append, List.take_append_drop]
    rw [hsplit, List.flatMap_append, List.find?_append]
    -- a directory behind the border has been looked at before
    cases hfind : (((aa.take border).filterMap id).flatMap searchDirs).find? fun n =>
        isfile (n ++ '/' :: name) with
    | some n => rfl
    | none =>
        rw [Option.none_or, eq_comm, List.find?_eq_none]
        intro dir hdir
        obtain ⟨p, hp, hpdir⟩ := mem_dirs.mp hdir
        obtain ⟨q, hq, hqdir⟩ := h.2 p (List.mem_of_mem_drop hp) dir hpdir
        have hmem := mem_dirs.mpr ⟨q, (takeWhile_prefix_take hborder).subset hq, hqdir⟩
        exact List.find?_eq_none.mp hfind dir hmem

/-- A search string with both separators is cut at one of them only. -/
theorem not_searchesLikeHost_mixed : ¬ SearchesLikeHost [some "/bin:/opt;/lib".toList] := by
  intro h
  have hborder : IsBorder [some "/bin:/opt;/lib".toList] 1 := ⟨.inr ⟨_, rfl⟩, fun p h => by cases h⟩
  have hfind := h 1 hborder (fun t => t = "/bin/sh".toList) "sh".toList
  rw [Host.os_pathsearch_eq] at hfind
  exact absurd hfind (by decide)

end Os

end Puremake
