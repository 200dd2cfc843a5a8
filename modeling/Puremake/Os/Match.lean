import Puremake.Os.Disk
import Puremake.Lua.Glob
import Puremake.Path.Names
import Puremake.Fold.Basic
import Mathlib.Data.List.Nodup
import Mathlib.Tactic.Choose

/-!
# Files that match a mask

`os.matchfiles` cuts the directory in front of the first star out of a mask, goes through
it, and with `**` through everything below, and matches the names that `path.join` gives the
files with the pattern of the mask. It finds what the mask says when `path.join` leaves
the directory as it is written and the files are in the reach of the search.
-/

namespace Puremake

namespace Os

/-- What can go wrong with a search: the pattern of the mask is malformed, or the search does not
come to an end. -/
inductive MatchError
  | pattern (e : Lua.PatternError)
  | outOfFuel
  deriving DecidableEq, Repr

/-- What `os.matchstart` makes of a search: the directory, with or without a slash at
the end, and the names that `os.matchnext` gives. The last part of the argument
is always a star here, which matches every name. -/
structure Search where
  pd : Str
  filenames : List Str

variable (disk : Disk) (cwd : List Str)

/-- `os.matchstart` and `os.matchnext` -/
def matchstart (p : Str) : Search :=
  let pd := ((WPath.parse p).dir).getD []
  let pd := if pd = [] then dot else pd
  ⟨pd, (disk.dir cwd pd).filter fun filename => filename ≠ dot ∧ filename ≠ dotdot⟩

def matchisfile (it : Search) (filename : Str) : Bool :=
  disk.mode cwd (Path.join [some it.pd, some filename]) = some .file

/-- What the first loop of `matchwalker` does with an entry. -/
def visitFile (mask : Str) (wantfiles : Bool) (basedir : Str) (it : Search) (basename : Str) :
    Except MatchError (List Str) :=
  if matchisfile disk cwd it basename = wantfiles then
    let fullname := Path.join [some basedir, some basename]
    match Lua.matched mask fullname with
    | .error e => .error (.pattern e)
    | .ok m => .ok (if basename ≠ dotdot ∧ m = some fullname then [fullname] else [])
  else .ok []

/-- `matchwalker` in `domatch`: the results that it adds. -/
def matchwalker (recurse : Bool) (mask : Str) (wantfiles : Bool) :
    ℕ → Str → Except MatchError (List Str)
  | 0, _ => .error .outOfFuel
  | fuel + 1, basedir => do
    let wildcard := Path.join [some basedir, some ['*']]
    let m := matchstart disk cwd wildcard
    let found ← m.filenames.mapM (visitFile disk cwd mask wantfiles basedir m)
    if recurse then
      let below ← m.filenames.mapM fun dirname =>
        if matchisfile disk cwd m dirname || Str.startswith dirname ['.'] then .ok []
        else matchwalker recurse mask wantfiles fuel (Path.join [some basedir, some dirname])
      return found.flatten ++ below.flatten
    else return found.flatten

def trimMask (mask : Str) : Str := if Str.startswith mask ['.', '/'] then mask.drop 2 else mask

def literalText (mask : Str) : Str := mask.takeWhile (· ≠ '*')

def basedirOf (mask : Str) : Str := Path.getdirectory (literalText mask)

/-- `mask:find("**", nil, true)` -/
def hasStars : Str → Bool
  | '*' :: '*' :: _ => true
  | _ :: s => hasStars s
  | [] => false

def domatch (fuel : ℕ) (mask : Str) (wantfiles : Bool) : Except MatchError (List Str) :=
  let mask := trimMask mask
  matchwalker disk cwd (hasStars mask) (Path.wildcards mask) wantfiles fuel
    (basedirOf mask)

def matchfiles (fuel : ℕ) (masks : List Str) : Except MatchError (List Str) := do
  return (← masks.mapM fun mask => domatch disk cwd fuel mask true).flatten

/-- The pieces of a mask that are followed by a slash in front of the first star. -/
def literalDirs (mask : Str) : List Str :=
  (pieces (fun c => c = '/') (literalText mask)).dropLast

def placeOf (ps : List Str) : Option (List Str) :=
  disk.walk (if ps.head? = some [] then [] else cwd) ps

def place (b : Str) : Option (List Str) := placeOf disk cwd (Path.settled b)

/-- What there is to find in a directory `d`, whose pieces are `ps`, and below it: files
behind names of directories that do not start with a dot, whose paths match. -/
def Hit (recurse : Bool) (mask : Str) (ps : List Str) (d : List Str) (p : Str) :
    Prop :=
  ∃ ns f, p = concat '/' (ps ++ ns ++ [f]) ∧ disk.kind? (d ++ ns ++ [f]) = some .file ∧
    (∀ x ∈ ns, x.head? ≠ some '.') ∧ (recurse ∨ ns = []) ∧ GlobMatches mask p

/-- The mask describes the path of a file: the path starts with the directory in front of the
first star, as the mask writes it, and is an instance of the mask. -/
def Found (mask p : Str) : Prop :=
  ∃ d, placeOf disk cwd (literalDirs mask) = some d ∧
    Hit disk true mask (literalDirs mask) d p

/-- The result of `os.matchfiles` is what a mask says. -/
def FindsAll (mask : Str) : Prop :=
  ∃ fuel₀, ∀ fuel, fuel₀ ≤ fuel → ∃ result, matchfiles disk cwd fuel [mask] = .ok result ∧
    result.Nodup ∧ ∀ p, p ∈ result ↔ Found disk cwd (trimMask mask) p

/-- A name that is appended to the directory of the mask stands behind the pieces that the
mask has there. -/
def Settled (mask : Str) : Prop :=
  Path.join [some (basedirOf mask), some ['*']] = concat '/' (literalDirs mask ++ [['*']])

/-- The search reaches all the files that the mask can describe. -/
def Reaching (mask : Str) : Prop :=
  hasStars mask ∨ '/' ∉ mask.dropWhile (· ≠ '*')

instance (mask : Str) : Decidable (Settled mask) := inferInstanceAs (Decidable (_ = _))

instance (mask : Str) : Decidable (Reaching mask) := inferInstanceAs (Decidable (_ ∨ _))

/-- The names that a search comes across in a directory and below it are appended as they
are. -/
def PlainBelow (recurse : Bool) (disk : Disk) (d : List Str) : Prop :=
  ∀ ns n k, disk.kind? (d ++ ns ++ [n]) = some k → (∀ x ∈ ns, x.head? ≠ some '.') →
    recurse ∨ ns = [] → Path.IsName n

/-- The pattern of the mask means what the mask says, and the names that the search comes
across are appended as they are. -/
def Readable (mask : Str) : Prop :=
  Unmagic false mask ∧
    ∀ d, place disk cwd (basedirOf mask) = some d → PlainBelow (hasStars mask) disk d

section Place

theorem isName_star : Path.IsName ['*'] := by decide

theorem head_concat {ps : List Str} (hps : ∀ q ∈ ps, ∀ c ∈ q, isSeparator c = false)
    {x : Str} (hx : ps = [] → x.head? ≠ some '/') :
    (concat '/' (ps ++ [x])).head? = some '/' ↔ ps.head? = some [] := by
  cases ps with
  | nil => simpa using hx rfl
  | cons q qs =>
      rw [List.cons_append,
        concat_cons (List.append_ne_nil_of_right_ne_nil _ (List.cons_ne_nil _ _))]
      cases q with
      | nil => simp
      | cons c q =>
          have hc : isSeparator c = false := hps _ List.mem_cons_self c List.mem_cons_self
          have hne : c ≠ '/' := by
            rintro rfl
            exact absurd hc (by decide)
          simpa using hne

theorem pieces_slash {ps : List Str} (hps : ∀ q ∈ ps, '/' ∉ q) {x : Str} (hx : '/' ∉ x) :
    pieces (fun c => c = '/') (concat '/' (ps ++ [x])) = ps ++ [x] := by
  refine pieces_concat (by decide)
    (List.append_ne_nil_of_right_ne_nil _ (List.cons_ne_nil _ _)) fun q hq c hc => ?_
  refine decide_eq_false ?_
  rintro rfl
  rcases List.mem_append.mp hq with hq | hq
  · exact hps q hq hc
  · rw [List.mem_singleton.mp hq] at hc
    exact hx hc

theorem not_slash_of_mem_settled {b q : Str} (hq : q ∈ Path.settled b) : '/' ∉ q :=
  fun h => absurd (Path.not_sep_of_mem_settled hq _ h) (by decide)

theorem concat_append_ne_nil {ps : List Str} (hps : ps ≠ []) {x : Str} :
    concat '/' (ps ++ [x]) ≠ [] := by
  rw [concat_append hps (List.cons_ne_nil _ _)]
  exact List.append_ne_nil_of_right_ne_nil _ (List.cons_ne_nil _ _)

variable {b : Str} (hb : b ≠ [])

include hb

theorem resolve_join {n : Str} (hn : Path.IsName n) :
    disk.resolve cwd (Path.join [some b, some n]) =
      (place disk cwd b).bind fun d => disk.walk d [n] := by
  have hslash : '/' ∉ n := fun h => absurd (hn.1.2.2 _ h) (by decide)
  have hhead : n.head? ≠ some '/' := fun h => hslash (List.mem_of_mem_head? h)
  have hseps : ∀ q ∈ Path.settled b, ∀ c ∈ q, isSeparator c = false := fun q =>
    Path.not_sep_of_mem_settled
  rw [Path.join_name hb hn, Disk.resolve,
    pieces_slash (fun _ => not_slash_of_mem_settled) hslash, Disk.walk_append, place, placeOf]
  simp only [head_concat hseps fun _ => hhead]

theorem resolve_pd :
    disk.resolve cwd (matchstart disk cwd (Path.join [some b, some ['*']])).pd =
      (place disk cwd b).bind fun d => if disk.kind? d = some .directory then some d else none := by
  have hstop : ∀ d, disk.walk d [[]] =
      if disk.kind? d = some .directory then some d else none := by
    intro d
    rw [Disk.walk, if_pos (Or.inl rfl), Disk.walk]
    by_cases h : disk.kind? d = some .directory
    · rw [if_neg (not_not.mpr h), if_pos h]
    · rw [if_pos h, if_neg h]
  have hseps : ∀ q ∈ Path.settled b, ∀ c ∈ q, isSeparator c = false := fun q =>
    Path.not_sep_of_mem_settled
  rw [matchstart, Path.join_name hb isName_star]
  simp only [Path.parse_dir isName_star]
  by_cases hnil : Path.settled b = []
  · rw [place, placeOf, hnil, Path.slashed, if_pos rfl, if_pos rfl, Disk.resolve,
      if_neg (by decide), show pieces (fun c => c = '/') dot = [dot] from rfl, Disk.walk,
      if_neg (by decide),
      Disk.walk, if_pos (Or.inr rfl), Disk.walk]
    simp only [Option.bind_some]
    by_cases h : disk.kind? cwd = some .directory
    · simp [h]
    · simp [h]
  · have hne : concat '/' (Path.settled b ++ [[]]) ≠ [] := concat_append_ne_nil hnil
    rw [Path.slashed, if_neg hnil, if_neg hne, Disk.resolve,
      pieces_slash (fun _ => not_slash_of_mem_settled) (by simp), Disk.walk_append, place, placeOf]
    simp only [head_concat hseps fun h => absurd h hnil, hstop]

/-- The directory part is a directory that a name is appended to like to the argument. -/
theorem settled_pd :
    (matchstart disk cwd (Path.join [some b, some ['*']])).pd ≠ [] ∧
      Path.settled (matchstart disk cwd (Path.join [some b, some ['*']])).pd =
        Path.settled b := by
  rw [matchstart, Path.join_name hb isName_star]
  simp only [Path.parse_dir isName_star]
  by_cases hnil : Path.settled b = []
  · rw [hnil]
    exact ⟨by decide, rfl⟩
  · rw [Path.slashed, if_neg hnil, if_neg (concat_append_ne_nil hnil)]
    exact ⟨concat_append_ne_nil hnil, Path.settled_append_slash hb isName_star hnil⟩

/-- What a search finds out about a directory: the names in it, and which of them are files. -/
theorem matchisfile_eq {n : Str} (hn : Path.IsName n) (hentry : EntryName n) {d : List Str}
    (hd : place disk cwd b = some d) (hdir : disk.kind? d = some .directory) :
    matchisfile disk cwd (matchstart disk cwd (Path.join [some b, some ['*']])) n =
      decide (disk.kind? (d ++ [n]) = some .file) := by
  obtain ⟨hne, hsettled⟩ := settled_pd disk cwd hb
  have hplace : place disk cwd
      (matchstart disk cwd (Path.join [some b, some ['*']])).pd = some d := by
    rw [place, hsettled]
    exact hd
  rw [matchisfile, Disk.mode, resolve_join disk cwd hne hn, hplace, Option.bind_some,
    Disk.walk_name hentry, if_pos hdir]
  rfl

theorem filenames_eq : (matchstart disk cwd (Path.join [some b, some ['*']])).filenames =
    match place disk cwd b with
    | some d => if disk.kind? d = some .directory then disk.entries d else []
    | none => [] := by
  have hnames : ∀ d, (disk.entries d).filter (fun n => n ≠ dot ∧ n ≠ dotdot) =
      disk.entries d := by
    intro d
    refine List.filter_eq_self.mpr fun n hn => ?_
    obtain ⟨k, hk⟩ := Disk.mem_entries_iff.mp hn
    obtain ⟨-, hdot, hdotdot, -⟩ := Disk.entryName_of_kind? hk n (by simp)
    exact decide_eq_true ⟨hdot, hdotdot⟩
  show (disk.dir cwd (matchstart disk cwd (Path.join [some b, some ['*']])).pd).filter _ = _
  rw [Disk.dir, resolve_pd disk cwd hb]
  cases place disk cwd b with
  | none => rfl
  | some d =>
      rw [Option.bind_some]
      by_cases hdir : disk.kind? d = some .directory
      · simp only [hdir, if_true]
        rw [List.filter_cons_of_neg (by decide), List.filter_cons_of_neg (by decide), hnames]
      · simp [hdir]

theorem place_join {n : Str} (hn : Path.IsName n) (hentry : EntryName n) {d : List Str}
    (hd : place disk cwd b = some d) (hdir : disk.kind? d = some .directory) :
    place disk cwd (Path.join [some b, some n]) = some (d ++ [n]) := by
  have hhead : (Path.settled b ++ [n]).head? = some [] ↔ (Path.settled b).head? = some [] := by
    cases Path.settled b with
    | nil => simpa using hn.1.1
    | cons q qs => simp
  rw [place, placeOf] at hd
  rw [place, placeOf, Path.join_name hb hn, Path.settled_join_name hb hn, Disk.walk_append]
  simp only [hhead, hd, Option.bind_some]
  rw [Disk.walk_name hentry, if_pos hdir]

end Place

section Walker

variable {disk cwd}

theorem PlainBelow.entry {d : List Str} (h : PlainBelow true disk d) {n : Str}
    (hn : n.head? ≠ some '.') : PlainBelow true disk (d ++ [n]) := by
  intro ns m k hk hdots _
  refine h (n :: ns) m k (by simpa using hk) (fun x hx => ?_) (.inl rfl)
  rcases List.mem_cons.mp hx with rfl | hx
  · exact hn
  · exact hdots x hx

theorem PlainBelow.isName_of_mem_entries {recurse : Bool} {d : List Str}
    (h : PlainBelow recurse disk d) {n : Str} (hn : n ∈ disk.entries d) : Path.IsName n := by
  obtain ⟨k, hk⟩ := Disk.mem_entries_iff.mp hn
  exact h [] n k (by simpa using hk) (by simp) (.inr rfl)

theorem PlainBelow.isName_of_kind? {recurse : Bool} {d : List Str}
    (h : PlainBelow recurse disk d) {ns : List Str} {f : Str} {k : Kind}
    (hkind : disk.kind? (d ++ ns ++ [f]) = some k) (hdots : ∀ x ∈ ns, x.head? ≠ some '.')
    (hrec : recurse ∨ ns = []) : ∀ n ∈ ns ++ [f], Path.IsName n := by
  intro n hn
  rcases List.mem_append.mp hn with hn | hn
  · obtain ⟨as, bs, rfl⟩ := List.append_of_mem hn
    have hsplit : disk.kind? (d ++ as ++ [n] ++ (bs ++ [f])) = some k := by simpa using hkind
    exact h as n _ (Disk.kind?_above hsplit (by simp))
      (fun x hx => hdots x (List.mem_append_left _ hx))
      (.inl (hrec.resolve_right (by simp)))
  · rw [List.mem_singleton.mp hn]
    exact h ns f k hkind hdots hrec

theorem Hit.directory {recurse : Bool} {mask : Str} {ps d : List Str} {p : Str}
    (h : Hit disk recurse mask ps d p) : disk.kind? d = some .directory := by
  obtain ⟨ns, f, -, hfile, -⟩ := h
  rw [List.append_assoc] at hfile
  exact Disk.kind?_above hfile (by simp)

/-- The path of a file that is found has the pieces of the directory in front. -/
theorem Hit.cut {recurse : Bool} {mask : Str} {ps d : List Str} {p : Str}
    (h : Hit disk recurse mask ps d p) (hps : ∀ q ∈ ps, ∀ c ∈ q, isSeparator c = false)
    (hd : PlainBelow recurse disk d) : ∃ ns f, pieces isSeparator p = ps ++ (ns ++ [f]) := by
  obtain ⟨ns, f, rfl, hfile, hdots, hrec, -⟩ := h
  have hnames := hd.isName_of_kind? hfile hdots hrec
  rw [List.append_assoc]
  refine ⟨ns, f, pieces_concat (by decide) (by simp) fun q hq => ?_⟩
  rcases List.mem_append.mp hq with hq | hq
  · exact hps q hq
  · exact (hnames q hq).1.2.2

theorem hit_iff {recurse : Bool} {mask : Str} {ps d : List Str} {p : Str} :
    Hit disk recurse mask ps d p ↔
      (∃ n, p = concat '/' (ps ++ [n]) ∧ disk.kind? (d ++ [n]) = some .file ∧
        GlobMatches mask p) ∨
      (recurse ∧ ∃ n, n.head? ≠ some '.' ∧ Hit disk recurse mask (ps ++ [n]) (d ++ [n]) p) := by
  constructor
  · rintro ⟨ns, f, hp, hfile, hdots, hrec, hmatch⟩
    cases ns with
    | nil => exact .inl ⟨f, by simpa using hp, by simpa using hfile, hmatch⟩
    | cons n ns =>
        have hrec : recurse = true := hrec.resolve_right (List.cons_ne_nil _ _)
        refine .inr ⟨hrec, n, hdots n List.mem_cons_self, ns, f, by simpa using hp,
          by simpa using hfile, fun x hx => hdots x (List.mem_cons_of_mem _ hx), .inl hrec, hmatch⟩
  · rintro (⟨n, hp, hfile, hmatch⟩ | ⟨hrec, n, hn, ns, f, hp, hfile, hdots, -, hmatch⟩)
    · exact ⟨[], n, by simpa using hp, by simpa using hfile, by simp, .inr rfl, hmatch⟩
    · refine ⟨n :: ns, f, by simpa using hp, by simpa using hfile, fun x hx => ?_, .inl hrec,
        hmatch⟩
      rcases List.mem_cons.mp hx with rfl | hx
      · exact hn
      · exact hdots x hx

/-- What is found in the entries of a directory, and below them, has no duplicates. -/
theorem nodup_found {ps names : List Str} (hnames : names.Nodup) {own below : Str → List Str}
    (hown : ∀ n ∈ names, (own n).Nodup ∧
      ∀ p ∈ own n, pieces isSeparator p = ps ++ [n])
    (hbelow : ∀ n ∈ names, (below n).Nodup ∧
      ∀ p ∈ below n, ∃ ns f, pieces isSeparator p = ps ++ [n] ++ (ns ++ [f])) :
    (names.flatMap own ++ names.flatMap below).Nodup := by
  have hflat : ∀ g : Str → List Str, (∀ n ∈ names, (g n).Nodup ∧
      ∀ p ∈ g n, ps ++ [n] <+: pieces isSeparator p) → (names.flatMap g).Nodup := by
    intro g hg
    refine List.nodup_flatMap.mpr ⟨fun n hn => (hg n hn).1,
      List.Pairwise.imp_of_mem (fun {n m} hn hm hne p hpn hpm => hne ?_) hnames⟩
    have heq := List.prefix_or_prefix_of_prefix ((hg n hn).2 p hpn) ((hg m hm).2 p hpm)
    rcases heq with h | h
    · simpa using h
    · have hmn : m = n := by simpa using h
      exact hmn.symm
  refine List.nodup_append.mpr ⟨hflat own fun n hn => ⟨(hown n hn).1, fun p hp => ?_⟩,
    hflat below fun n hn => ⟨(hbelow n hn).1, fun p hp => ?_⟩, fun p hp q hq => ?_⟩
  · rw [(hown n hn).2 p hp]
  · obtain ⟨ns, f, h⟩ := (hbelow n hn).2 p hp
    exact ⟨_, h.symm⟩
  · rintro rfl
    obtain ⟨n, hn, hp⟩ := List.mem_flatMap.mp hp
    obtain ⟨m, hm, hq⟩ := List.mem_flatMap.mp hq
    obtain ⟨ns, f, h⟩ := (hbelow m hm).2 p hq
    have hlen := congrArg List.length (((hown n hn).2 p hp).symm.trans h)
    simp at hlen

def hitsIn (disk : Disk) (mask : Str) (ps d : List Str) (n : Str) : List Str :=
  if disk.kind? (d ++ [n]) = some .file ∧ GlobMatches mask (concat '/' (ps ++ [n]))
  then [concat '/' (ps ++ [n])] else []

theorem mem_hitsIn {mask : Str} {ps d : List Str} {n p : Str} :
    p ∈ hitsIn disk mask ps d n ↔ p = concat '/' (ps ++ [n]) ∧
      disk.kind? (d ++ [n]) = some .file ∧ GlobMatches mask p := by
  rw [hitsIn]
  split
  · rename_i h
    rw [List.mem_singleton]
    exact ⟨fun hp => ⟨hp, h.1, hp ▸ h.2⟩, fun hp => hp.1⟩
  · rename_i h
    exact iff_of_false List.not_mem_nil fun hp => h ⟨hp.2.1, hp.1 ▸ hp.2.2⟩

theorem nodup_hitsIn {mask : Str} {ps d : List Str} {n : Str} :
    (hitsIn disk mask ps d n).Nodup := by
  rw [hitsIn]
  split
  · exact List.nodup_singleton _
  · exact List.nodup_nil

theorem visitFile_eq {mask : Str} (hmask : Unmagic false mask) {b : Str} (hb : b ≠ []) {n : Str}
    (hn : Path.IsName n) (hentry : EntryName n) {d : List Str} (hd : place disk cwd b = some d)
    (hdir : disk.kind? d = some .directory) :
    visitFile disk cwd (Path.wildcards mask) true b
        (matchstart disk cwd (Path.join [some b, some ['*']])) n =
      .ok (hitsIn disk mask (Path.settled b) d n) := by
  obtain ⟨m, hm, hglob⟩ := matched_wildcards hmask (concat '/' (Path.settled b ++ [n]))
  rw [visitFile, matchisfile_eq disk cwd hb hn hentry hd hdir, hitsIn]
  by_cases hfile : disk.kind? (d ++ [n]) = some .file
  · rw [if_pos (decide_eq_true hfile)]
    simp only [Path.join_name hb hn, hm]
    by_cases hmatch : GlobMatches mask (concat '/' (Path.settled b ++ [n]))
    · rw [if_pos ⟨hn.2.1, hglob.mpr hmatch⟩, if_pos ⟨hfile, hmatch⟩]
    · rw [if_neg fun h => hmatch (hglob.mp h.2), if_neg fun h => hmatch h.2]
  · rw [if_neg fun h => hfile (of_decide_eq_true h), if_neg fun h => hfile h.1]

/-- The results of the two loops of `matchwalker`, entry by entry. -/
theorem matchwalker_eq (own below : Str → List Str) {recurse : Bool} {mask : Str} {fuel : ℕ}
    {b : Str} {m : Search} (hm : m = matchstart disk cwd (Path.join [some b, some ['*']]))
    (hown : ∀ n ∈ m.filenames, visitFile disk cwd mask true b m n = .ok (own n))
    (hbelow : recurse = true → ∀ n ∈ m.filenames,
      (if matchisfile disk cwd m n || Str.startswith n ['.'] then .ok []
        else matchwalker disk cwd recurse mask true fuel (Path.join [some b, some n])) =
          .ok (below n)) :
    matchwalker disk cwd recurse mask true (fuel + 1) b =
      .ok (m.filenames.flatMap own ++ if recurse then m.filenames.flatMap below else []) := by
  rw [matchwalker, ← hm]
  simp only [FoldRun.mapM_of_forall hown]
  cases recurse with
  | false => simp [bind, Except.bind, pure, Except.pure, List.flatMap_def]
  | true =>
      have hbelow := FoldRun.mapM_of_forall (hbelow rfl)
      simp only [if_true, hbelow]
      simp [bind, Except.bind, pure, Except.pure, List.flatMap_def]

/-- What the second loop finds in the entries of a directory, when the walker finds what it
should in the directories below. -/
theorem exists_below {mask : Str} {fuel : ℕ} {b : Str} (hb : b ≠ [])
    {d : List Str} (hd : place disk cwd b = some d) (hdir : disk.kind? d = some .directory)
    {n : Str} (hn : n ∈ disk.entries d) (hname : Path.IsName n)
    (hwalk : n.head? ≠ some '.' → ∃ l, matchwalker disk cwd true (Path.wildcards mask) true fuel
        (Path.join [some b, some n]) = .ok l ∧ l.Nodup ∧
      ∀ p, p ∈ l ↔ Hit disk true mask (Path.settled b ++ [n]) (d ++ [n]) p) :
    ∃ l, (if matchisfile disk cwd (matchstart disk cwd (Path.join [some b, some ['*']])) n ||
          Str.startswith n ['.'] then .ok []
        else matchwalker disk cwd true (Path.wildcards mask) true fuel
          (Path.join [some b, some n])) = .ok l ∧ l.Nodup ∧
      ∀ p, p ∈ l ↔ n.head? ≠ some '.' ∧
        Hit disk true mask (Path.settled b ++ [n]) (d ++ [n]) p := by
  obtain ⟨k, hk⟩ := Disk.mem_entries_iff.mp hn
  have hentry : EntryName n := Disk.entryName_of_kind? hk n (by simp)
  have hdot : Str.startswith n ['.'] = true ↔ n.head? = some '.' := by
    rw [Str.startswith_iff]
    cases n with
    | nil => simp
    | cons c n => simp [List.cons_prefix_cons, eq_comm]
  rw [matchisfile_eq disk cwd hb hname hentry hd hdir]
  by_cases hskip : disk.kind? (d ++ [n]) = some .file ∨ n.head? = some '.'
  · refine ⟨[], if_pos (by simpa [hdot] using hskip), List.nodup_nil, fun p => ?_⟩
    refine iff_of_false List.not_mem_nil fun ⟨hhead, hhit⟩ => ?_
    rcases hskip with hfile | hhead'
    · rw [hhit.directory] at hfile
      cases hfile
    · exact hhead hhead'
  · obtain ⟨hfile, hhead⟩ := not_or.mp hskip
    obtain ⟨l, hl, hnodup, hmem⟩ := hwalk hhead
    refine ⟨l, (if_neg (by simpa [hdot] using ⟨hfile, hhead⟩)).trans hl, hnodup, fun p => ?_⟩
    rw [hmem]
    exact ⟨fun h => ⟨hhead, h⟩, fun h => h.2⟩

/-- The entries of a directory, and what is found below them, give what there is to
find in the directory. -/
theorem hits_of_entries {recurse : Bool} {mask : Str} {ps d : List Str}
    (hps : ∀ q ∈ ps, ∀ c ∈ q, isSeparator c = false) (hplain : PlainBelow recurse disk d)
    {below : Str → List Str} (hbelow : recurse = true → ∀ n ∈ disk.entries d,
      (below n).Nodup ∧ ∀ p, p ∈ below n ↔
        n.head? ≠ some '.' ∧ Hit disk recurse mask (ps ++ [n]) (d ++ [n]) p) :
    ((disk.entries d).flatMap (hitsIn disk mask ps d) ++
        if recurse then (disk.entries d).flatMap below else []).Nodup ∧
      ∀ p, p ∈ (disk.entries d).flatMap (hitsIn disk mask ps d) ++
          (if recurse then (disk.entries d).flatMap below else []) ↔
        Hit disk recurse mask ps d p := by
  have hname : ∀ n ∈ disk.entries d, Path.IsName n := fun n => hplain.isName_of_mem_entries
  have hseps : ∀ n ∈ disk.entries d, ∀ q ∈ ps ++ [n], ∀ c ∈ q, isSeparator c = false := by
    intro n hn q hq
    rcases List.mem_append.mp hq with hq | hq
    · exact hps q hq
    · rw [List.mem_singleton.mp hq]
      exact (hname n hn).1.2.2
  constructor
  · have hown : ∀ n ∈ disk.entries d, (hitsIn disk mask ps d n).Nodup ∧
        ∀ p ∈ hitsIn disk mask ps d n, pieces isSeparator p = ps ++ [n] := by
      refine fun n hn => ⟨nodup_hitsIn, fun p hp => ?_⟩
      rw [(mem_hitsIn.mp hp).1]
      exact pieces_concat (by decide) (by simp) (hseps n hn)
    cases recurse with
    | false =>
        have hnone : ∀ n ∈ disk.entries d, ([] : List Str).Nodup ∧ ∀ p ∈ ([] : List Str),
            ∃ ns f, pieces isSeparator p = ps ++ [n] ++ (ns ++ [f]) := by simp
        simpa using (List.nodup_append.mp (nodup_found (disk.nodup_entries d) hown hnone)).1
    | true =>
        refine nodup_found (disk.nodup_entries d) hown fun n hn => ?_
        obtain ⟨hnodup, hmem⟩ := hbelow rfl n hn
        refine ⟨hnodup, fun p hp => ?_⟩
        obtain ⟨hhead, hhit⟩ := (hmem p).mp hp
        exact hhit.cut (hseps n hn) (hplain.entry hhead)
  · intro p
    rw [List.mem_append, List.mem_flatMap, hit_iff]
    refine or_congr ⟨?_, ?_⟩ ⟨?_, ?_⟩
    · rintro ⟨n, -, hp⟩
      exact ⟨n, mem_hitsIn.mp hp⟩
    · rintro ⟨n, hp, hfile, hmatch⟩
      exact ⟨n, Disk.mem_entries_iff.mpr ⟨_, hfile⟩, mem_hitsIn.mpr ⟨hp, hfile, hmatch⟩⟩
    · intro hp
      split at hp
      · rename_i hrec
        obtain ⟨n, hn, hp⟩ := List.mem_flatMap.mp hp
        exact ⟨hrec, n, ((hbelow hrec n hn).2 p).mp hp⟩
      · cases hp
    · rintro ⟨hrec, n, hhead, hhit⟩
      have hn : n ∈ disk.entries d := Disk.mem_entries_iff.mpr ⟨_, hhit.directory⟩
      rw [if_pos hrec]
      exact List.mem_flatMap.mpr ⟨n, hn, ((hbelow hrec n hn).2 p).mpr ⟨hhead, hhit⟩⟩

theorem matchwalker_spec {recurse : Bool} {mask : Str} (hmask : Unmagic false mask) {fuel : ℕ}
    (hpos : 0 < fuel) {b : Str} (hb : b ≠ [])
    (hplain : ∀ d, place disk cwd b = some d → PlainBelow recurse disk d)
    (hfuel : ∀ d, place disk cwd b = some d → disk.depth < d.length + fuel) :
    ∃ l, matchwalker disk cwd recurse (Path.wildcards mask) true fuel b = .ok l ∧ l.Nodup ∧
      ∀ p, p ∈ l ↔ ∃ d, place disk cwd b = some d ∧
        Hit disk recurse mask (Path.settled b) d p := by
  induction fuel generalizing b with
  | zero => exact absurd hpos (Nat.lt_irrefl 0)
  | succ fuel ih =>
      have hnames := filenames_eq disk cwd hb
      by_cases hdir : ∃ d, place disk cwd b = some d ∧ disk.kind? d = some .directory
      · obtain ⟨d, hd, hdir⟩ := hdir
        have hplain := hplain d hd
        have hfuel := hfuel d hd
        simp only [hd, hdir, if_true] at hnames
        have hname : ∀ n ∈ disk.entries d, Path.IsName n ∧ EntryName n := by
          intro n hn
          obtain ⟨k, hk⟩ := Disk.mem_entries_iff.mp hn
          exact ⟨hplain.isName_of_mem_entries hn, Disk.entryName_of_kind? hk n (by simp)⟩
        have hbelow : ∃ below : Str → List Str, recurse = true → ∀ n ∈ disk.entries d,
            (if matchisfile disk cwd (matchstart disk cwd (Path.join [some b, some ['*']])) n ||
                Str.startswith n ['.'] then .ok []
              else matchwalker disk cwd recurse (Path.wildcards mask) true fuel
                (Path.join [some b, some n])) = .ok (below n) ∧ (below n).Nodup ∧
              ∀ p, p ∈ below n ↔ n.head? ≠ some '.' ∧
                Hit disk recurse mask (Path.settled b ++ [n]) (d ++ [n]) p := by
          cases recurse with
          | false => exact ⟨fun _ => [], fun h => by cases h⟩
          | true =>
              have hwalk : ∀ n ∈ disk.entries d, n.head? ≠ some '.' → ∃ l, matchwalker disk cwd true
                  (Path.wildcards mask) true fuel (Path.join [some b, some n]) = .ok l ∧ l.Nodup ∧
                    ∀ p, p ∈ l ↔ Hit disk true mask (Path.settled b ++ [n]) (d ++ [n]) p := by
                intro n hn hhead
                obtain ⟨hn', hentry⟩ := hname n hn
                obtain ⟨k, hk⟩ := Disk.mem_entries_iff.mp hn
                have hlen := Disk.length_le_depth hk
                rw [List.length_append, List.length_singleton] at hlen
                have hplace := place_join disk cwd hb hn' hentry hd hdir
                have hne : Path.join [some b, some n] ≠ [] := by
                  rw [Path.join_name hb hn']
                  exact Path.concat_name_ne_nil b hn'
                obtain ⟨l, hl, hnodup, hmem⟩ := ih (by omega) hne
                  (fun e he => by
                    rw [hplace] at he
                    exact Option.some.inj he ▸ hplain.entry hhead)
                  (fun e he => by
                    rw [hplace] at he
                    obtain rfl := Option.some.inj he
                    rw [List.length_append, List.length_singleton]
                    omega)
                refine ⟨l, hl, hnodup, fun p => ?_⟩
                rw [hmem, hplace, Path.join_name hb hn', Path.settled_join_name hb hn']
                simp
              choose! below hspec using fun n hn =>
                exists_below hb hd hdir hn (hname n hn).1 (hwalk n hn)
              exact ⟨below, fun _ => hspec⟩
        obtain ⟨below, hbelow⟩ := hbelow
        have hown := fun n hn => visitFile_eq hmask hb (hname n hn).1 (hname n hn).2 hd hdir
        obtain ⟨hnodup', hmem'⟩ := hits_of_entries (fun q => Path.not_sep_of_mem_settled) hplain
          fun hrec n hn => (hbelow hrec n hn).2
        refine ⟨_, matchwalker_eq _ below rfl (by rw [hnames]; exact hown)
          (fun hrec => by rw [hnames]; exact fun n hn => (hbelow hrec n hn).1), ?_⟩
        rw [hnames]
        refine ⟨hnodup', fun p => (hmem' p).trans ?_⟩
        simp [hd]
      · -- there is nothing to read
        have hnil : (matchstart disk cwd (Path.join [some b, some ['*']])).filenames = [] := by
          rw [hnames]
          cases hd : place disk cwd b with
          | none => rfl
          | some d => exact if_neg fun h => hdir ⟨d, hd, h⟩
        refine ⟨_, matchwalker_eq (fun _ => []) (fun _ => []) rfl ?_ ?_, ?_, fun p => ?_⟩
        · simp [hnil]
        · simp [hnil]
        · simp [hnil]
        · refine iff_of_false (by simp [hnil]) fun ⟨d, hd, hhit⟩ => hdir ⟨d, hd, hhit.directory⟩

end Walker

section Answer

variable {disk cwd}

/-- The directory of the search and the directory that the mask writes. -/
theorem literal_cases (mask : Str) :
    ('/' ∉ literalText mask ∧ literalDirs mask = [] ∧ basedirOf mask = dot) ∨
      ∃ a b, literalText mask = a ++ '/' :: b ∧ '/' ∉ b ∧
        literalDirs mask = pieces (fun c => c = '/') a ∧
        basedirOf mask = if a = [] then ['/'] else a := by
  rw [literalDirs, basedirOf, Path.getdirectory]
  cases h : Path.splitLast (fun c => c = '/') (literalText mask) with
  | none =>
      have hno := Path.splitLast_eq_none h
      refine .inl ⟨fun hmem => absurd (hno _ hmem) (by simp), ?_, rfl⟩
      rw [pieces_of_forall_not_sep hno]
      rfl
  | some ab =>
      obtain ⟨a, b⟩ := ab
      obtain ⟨c, hc, htext, hb⟩ := Path.splitLast_eq_some h
      obtain rfl : c = '/' := of_decide_eq_true hc
      refine .inr ⟨a, b, htext, fun hmem => absurd (hb _ hmem) (by simp), ?_, ?_⟩
      · rw [htext, pieces_append_pieces a (by simp), pieces_of_forall_not_sep hb,
          List.dropLast_concat]
      · cases a with
        | nil => rfl
        | cons x a => rfl

/-- The pieces of a text that goes on behind the literal part of a mask. -/
theorem exists_pieces_literal (mask : Str) : ∃ b, '/' ∉ b ∧ ∀ t,
    pieces (fun c => c = '/') (literalText mask ++ t) =
      literalDirs mask ++ pieces (fun c => c = '/') (b ++ t) := by
  rcases literal_cases mask with ⟨hno, hdirs, -⟩ | ⟨a, b, htext, hb, hdirs, -⟩
  · exact ⟨literalText mask, hno, fun t => by rw [hdirs, List.nil_append]⟩
  · refine ⟨b, hb, fun t => ?_⟩
    rw [htext, hdirs, List.append_assoc, List.cons_append, pieces_append_pieces a (by simp)]

theorem basedirOf_ne_nil (mask : Str) : basedirOf mask ≠ [] := by
  rcases literal_cases mask with ⟨-, -, h⟩ | ⟨a, b, -, -, -, h⟩
  · rw [h]
    decide
  · rw [h]
    split
    · decide
    · assumption

theorem not_slash_of_mem_literalDirs {mask q : Str} (hq : q ∈ literalDirs mask) : '/' ∉ q := by
  intro h
  have := isSep_of_mem_pieces (List.mem_of_mem_dropLast hq) _ h
  simp at this

/-- The mask is settled when its directory settles to the pieces that it is written with. -/
theorem settled_iff {mask : Str} :
    Settled mask ↔ Path.settled (basedirOf mask) = literalDirs mask := by
  rw [Settled, Path.join_name (basedirOf_ne_nil mask) isName_star]
  constructor
  · intro h
    have hcut := congrArg (pieces fun c => decide (c = '/')) h
    rw [pieces_slash (fun _ => not_slash_of_mem_settled) (by decide),
      pieces_slash (fun _ => not_slash_of_mem_literalDirs) (by decide)] at hcut
    exact List.append_cancel_right hcut
  · intro h
    rw [h]

/-- When something is found, the directory that the mask writes is the one that is searched:
the path has the pieces of both in front, the search goes on along names, and the directory
does not settle to more pieces than it has. -/
theorem settled_of_hit {recurse : Bool} {mask p : Str} {d : List Str}
    (h : Hit disk recurse mask (Path.settled (basedirOf mask)) d p)
    (hd : PlainBelow recurse disk d) : Path.settled (basedirOf mask) = literalDirs mask := by
  rcases literal_cases mask with ⟨-, hdirs, hbase⟩ | ⟨a, b, htext, -, hdirs, hbase⟩
  · rw [hdirs, hbase]
    rfl
  · by_cases ha : a = []
    · subst ha
      rw [hdirs, hbase]
      rfl
    · rw [if_neg ha] at hbase
      rw [hbase] at h
      rw [hdirs, hbase]
      obtain ⟨ns, f, hp, hfile, hdots, hrec, hmatch⟩ := h
      obtain ⟨t, ht, -⟩ := globMatches_iff_literal.mp hmatch
      replace ht : p = literalText mask ++ t := ht
      have hnames : ∀ n ∈ ns ++ [f], Path.IsName n := hd.isName_of_kind? hfile hdots hrec
      rw [List.append_assoc] at hp
      have hseps : ∀ q ∈ Path.settled a ++ (ns ++ [f]), ∀ c ∈ q, isSeparator c = false := by
        intro q hq
        rcases List.mem_append.mp hq with hq | hq
        · exact Path.not_sep_of_mem_settled hq
        · exact (hnames q hq).1.2.2
      have hcut : pieces isSeparator a ++ pieces isSeparator (b ++ t) =
          Path.settled a ++ (ns ++ [f]) := by
        have hslash : isSeparator '/' = true := by decide
        rw [← pieces_append_pieces a hslash, ← pieces_concat hslash (by simp) hseps, ← hp, ht,
          htext, List.append_assoc, List.cons_append]
      have hsettled : pieces isSeparator a = Path.settled a := by
        obtain ⟨ms, hms⟩ := List.prefix_of_prefix_length_le (List.prefix_append _ _)
          (hcut ▸ List.prefix_append _ _) (Path.length_settled_le a)
        refine Path.pieces_eq_settled ha (fun n hn => hnames n ?_) hms.symm
        rw [← hms, List.append_assoc] at hcut
        rw [← List.append_cancel_left hcut]
        exact List.mem_append_left _ hn
      rw [← hsettled]
      refine (pieces_congr fun c hc => ?_).symm
      have hmem : c ∈ p := by
        rw [ht, htext]
        exact List.mem_append_left _ (List.mem_append_left _ hc)
      rw [hp] at hmem
      rcases mem_concat hmem with rfl | ⟨q, hq, hc⟩
      · rfl
      · have hsep := hseps q hq c hc
        rw [hsep]
        exact decide_eq_false (by rintro rfl; exact absurd hsep (by decide))

theorem hasStars_literal (mask : Str) :
    hasStars (mask.dropWhile (· ≠ '*')) = hasStars mask := by
  induction mask with
  | nil => rfl
  | cons c s ih =>
      by_cases hc : c = '*'
      · rw [List.dropWhile_cons_of_neg (by simpa using hc)]
      · rw [List.dropWhile_cons_of_pos (by simpa using hc), ih, hasStars]
        exact fun t h => absurd h hc

/-- A mask without slashes and without `**` has no instances with slashes. -/
theorem not_slash_of_globMatches {w s : Str} (h : GlobMatches w s) (hw : '/' ∉ w)
    (hstars : hasStars w = false) : '/' ∉ s := by
  induction w using globPieces.induct generalizing s with
  | case1 =>
      rw [← Greedy.reaches_nil_iff.mp h]
      exact hw
  | case2 w ih => cases hstars
  | case3 w hne ih =>
      rw [GlobMatches, globPieces] at h
      · obtain ⟨a, t, rfl, ha, ht⟩ := Greedy.reaches_many_iff.mp h
        rw [hasStars] at hstars
        · rw [List.mem_append, not_or]
          exact ⟨fun hmem => by simpa using ha _ hmem,
            ih ht (fun hmem => hw (List.mem_cons_of_mem _ hmem)) hstars⟩
        · exact fun t _ ht => hne t ht
      · exact hne
  | case4 c w hne hc ih =>
      obtain ⟨t, rfl, ht⟩ := (globMatches_cons hc).mp h
      rw [hasStars] at hstars
      · rw [List.mem_cons, not_or]
        exact ⟨fun heq => hw (heq ▸ List.mem_cons_self),
          ih ht (fun hmem => hw (List.mem_cons_of_mem _ hmem)) hstars⟩
      · exact fun t h => absurd h hc

theorem length_pieces_of_mem {t : Str} (h : '/' ∈ t) :
    2 ≤ (pieces (fun c => c = '/') t).length := by
  obtain ⟨u, v, rfl⟩ := List.append_of_mem h
  rw [pieces_append_pieces u (by simp), List.length_append]
  have hpos : ∀ w : Str, 0 < (pieces (fun c => c = '/') w).length := fun w =>
    List.length_pos_of_ne_nil (pieces_ne_nil w)
  have hu := hpos u
  have hv := hpos v
  omega

/-- A path below the directory that the mask writes, and what the rest of the mask stands
for in it. -/
theorem Hit.rest {recurse : Bool} {mask p : Str} {d : List Str}
    (h : Hit disk recurse mask (literalDirs mask) d p) : ∃ ns f b t,
      p = concat '/' (literalDirs mask ++ ns ++ [f]) ∧
      disk.kind? (d ++ ns ++ [f]) = some .file ∧ (∀ x ∈ ns, x.head? ≠ some '.') ∧
      (recurse ∨ ns = []) ∧ GlobMatches mask p ∧ '/' ∉ b ∧
      GlobMatches (mask.dropWhile (· ≠ '*')) t ∧
      pieces (fun c => c = '/') (b ++ t) = ns ++ [f] := by
  obtain ⟨ns, f, hp, hfile, hdots, hrec, hmatch⟩ := h
  obtain ⟨t, ht, hrest⟩ := globMatches_iff_literal.mp hmatch
  obtain ⟨b, hb, hpieces⟩ := exists_pieces_literal mask
  refine ⟨ns, f, b, t, hp, hfile, hdots, hrec, hmatch, hb, hrest, ?_⟩
  have hentry : ∀ n ∈ ns ++ [f], '/' ∉ n := by
    intro n hn
    rw [List.append_assoc] at hfile
    exact (Disk.entryName_of_kind? hfile n (List.mem_append_right _ hn)).2.2.2
  have hcut : pieces (fun c => c = '/') p = literalDirs mask ++ ns ++ [f] := by
    rw [hp]
    refine pieces_slash (fun q hq => ?_) (hentry f (by simp))
    rcases List.mem_append.mp hq with hq | hq
    · exact not_slash_of_mem_literalDirs hq
    · exact hentry q (List.mem_append_left _ hq)
  replace ht : p = literalText mask ++ t := ht
  rw [ht, hpieces, List.append_assoc] at hcut
  exact List.append_cancel_left hcut

/-- When the search reaches all the files, it finds what the mask describes. -/
theorem hit_iff_of_reaching {mask p : Str} (hreach : Reaching mask) {d : List Str} :
    Hit disk (hasStars mask) mask (literalDirs mask) d p ↔
      Hit disk true mask (literalDirs mask) d p := by
  constructor
  · rintro ⟨ns, f, hp, hfile, hdots, -, hmatch⟩
    exact ⟨ns, f, hp, hfile, hdots, .inl rfl, hmatch⟩
  · intro h
    obtain ⟨ns, f, b, t, hp, hfile, hdots, -, hmatch, hb, hrest, hcut⟩ := h.rest
    refine ⟨ns, f, hp, hfile, hdots, ?_, hmatch⟩
    by_cases hstars : hasStars mask = true
    · exact .inl hstars
    · right
      have hslash := hreach.resolve_left hstars
      have ht : '/' ∉ t := not_slash_of_globMatches hrest hslash
        (by rw [hasStars_literal]; simpa using hstars)
      rw [pieces_of_forall_not_sep fun c hc => ?_] at hcut
      · cases ns with
        | nil => rfl
        | cons n ns =>
            have hlen := congrArg List.length hcut
            simp at hlen
      · refine decide_eq_false ?_
        rintro rfl
        exact (List.mem_append.mp hc).elim hb ht

theorem not_hit_of_not_reaching {mask p : Str} (hreach : ¬ Reaching mask) {d : List Str} :
    ¬ Hit disk (hasStars mask) mask (literalDirs mask) d p := by
  intro h
  obtain ⟨hstars, hslash⟩ := not_or.mp hreach
  obtain ⟨ns, f, b, t, -, -, -, hrec, -, -, hrest, hcut⟩ := h.rest
  obtain rfl := hrec.resolve_left hstars
  have ht : '/' ∈ b ++ t := List.mem_append_right _
    (mem_of_globMatches hrest (not_not.mp hslash) (by decide))
  have hlen := length_pieces_of_mem ht
  rw [hcut] at hlen
  simp at hlen

theorem matchfiles_spec {mask : Str} (h : Readable disk cwd (trimMask mask)) :
    ∃ fuel₀, ∀ fuel, fuel₀ ≤ fuel → ∃ result,
      matchfiles disk cwd fuel [mask] = .ok result ∧ result.Nodup ∧
        ∀ p, p ∈ result ↔ ∃ d, place disk cwd (basedirOf (trimMask mask)) = some d ∧
          Hit disk (hasStars (trimMask mask)) (trimMask mask)
            (Path.settled (basedirOf (trimMask mask))) d p := by
  refine ⟨disk.depth + 1, fun fuel hfuel => ?_⟩
  have hpos : 0 < fuel := Nat.lt_of_lt_of_le (Nat.succ_pos _) hfuel
  obtain ⟨l, hl, hspec⟩ := @matchwalker_spec disk cwd (hasStars (trimMask mask)) _ h.1 fuel hpos _
    (basedirOf_ne_nil (trimMask mask)) h.2 (fun d _ => by omega)
  refine ⟨l, ?_, hspec⟩
  rw [matchfiles, List.mapM_cons, domatch]
  simp only [hl]
  simp [bind, Except.bind, pure, Except.pure]

theorem found_of_hit {recurse : Bool} {mask p : Str}
    (h : ∀ d, place disk cwd (basedirOf mask) = some d → PlainBelow recurse disk d)
    (hp : ∃ d, place disk cwd (basedirOf mask) = some d ∧
      Hit disk recurse mask (Path.settled (basedirOf mask)) d p) :
    Path.settled (basedirOf mask) = literalDirs mask ∧ Found disk cwd mask p := by
  obtain ⟨d, hd, hhit⟩ := hp
  have hsettled := settled_of_hit hhit (h d hd)
  rw [place, hsettled] at hd
  rw [hsettled] at hhit
  obtain ⟨ns, f, hp, hfile, hdots, -, hmatch⟩ := hhit
  exact ⟨hsettled, d, hd, ns, f, hp, hfile, hdots, .inl rfl, hmatch⟩

theorem settled_reaching_of_findsAll {mask : Str} (h : Readable disk cwd (trimMask mask))
    (hall : FindsAll disk cwd mask) {p : Str} (hp : Found disk cwd (trimMask mask) p) :
    Settled (trimMask mask) ∧ Reaching (trimMask mask) := by
  obtain ⟨fuel₀, hspec⟩ := matchfiles_spec h
  obtain ⟨fuel₁, hall⟩ := hall
  obtain ⟨result, hresult, -, hmem⟩ := hspec (max fuel₀ fuel₁) (Nat.le_max_left _ _)
  obtain ⟨result', hresult', -, hmem'⟩ := hall (max fuel₀ fuel₁) (Nat.le_max_right _ _)
  obtain rfl := Except.ok.inj (hresult.symm.trans hresult')
  have hhit := (hmem p).mp ((hmem' p).mpr hp)
  obtain ⟨hsettled, -⟩ := found_of_hit h.2 hhit
  refine ⟨settled_iff.mpr hsettled, not_not.mp fun hreach => ?_⟩
  obtain ⟨d, -, hhit⟩ := hhit
  rw [hsettled] at hhit
  exact not_hit_of_not_reaching hreach hhit

end Answer

section Example

def oneBelowNodes : List (List Str × Kind) :=
  [([], .directory), (["home".toList], .directory), (["home".toList, "a".toList], .directory),
    (["home".toList, "a".toList, "x.c".toList], .file)]

theorem nodup_oneBelowNodes : (oneBelowNodes.map Prod.fst).Nodup := by decide

theorem root_mem_oneBelowNodes : ([], Kind.directory) ∈ oneBelowNodes := by decide

theorem closed_oneBelowNodes :
    ∀ e ∈ oneBelowNodes, e.1 ≠ [] → (e.1.dropLast, Kind.directory) ∈ oneBelowNodes := by decide

theorem names_oneBelowNodes : ∀ e ∈ oneBelowNodes, ∀ n ∈ e.1, EntryName n := by decide

def oneBelow : Disk :=
  ⟨oneBelowNodes, nodup_oneBelowNodes, root_mem_oneBelowNodes, closed_oneBelowNodes,
    names_oneBelowNodes⟩

theorem plainBelow_of_nodes {disk : Disk} (h : ∀ e ∈ disk.nodes, ∀ n ∈ e.1, Path.IsName n)
    (recurse : Bool) (d : List Str) : PlainBelow recurse disk d :=
  fun _ n _ hk _ _ => h _ (Disk.kind?_eq_some_iff.mp hk) n (by simp)

theorem plainBelow_oneBelow (recurse : Bool) (d : List Str) : PlainBelow recurse oneBelow d :=
  plainBelow_of_nodes (by decide) recurse d

end Example

end Os

end Puremake
