import Puremake.Lua.Malformed
import Puremake.Path.Here
import Puremake.Tree.Source

/-!
# Virtual paths

`getvpath` tries all patterns of all replacements, and every pattern that matches at the start
of the path sets the result anew. So the entry of the table that is enumerated last decides
among those with a match, and a malformed pattern anywhere raises an error. Whatever is cut off
in front, the name of the file stays behind the last separator.
-/

namespace Puremake

namespace Project

section Name

variable {abspath : Str}

/-- The name of a file: the last component is one. -/
def HasName (abspath : Str) : Prop :=
  Path.getname abspath ≠ [] ∧ Path.getname abspath ≠ dot ∧ Path.getname abspath ≠ dotdot

instance (abspath : Str) : Decidable (HasName abspath) := inferInstanceAs (Decidable (_ ∧ _))

theorem isComp_of_hasName (h : HasName abspath) : IsComp (Path.getname abspath) := by
  obtain ⟨a, -, -, hname⟩ := Path.exists_front abspath
  exact ⟨h.1, h.2.1, hname⟩

theorem startswith_slash_iff {s : Str} : Str.startswith s ['/'] ↔ s.head? = some '/' := by
  rw [Str.startswith_iff]
  cases s with
  | nil => simp
  | cons c s => simp [eq_comm]

theorem getname_replaced (h : HasName abspath) (replacement pattern : Str) :
    Path.getname (replaced replacement pattern abspath) = Path.getname abspath := by
  obtain ⟨a, hp, -, hname⟩ := Path.exists_front abspath
  have hlen : (Path.getname abspath).length ≤ abspath.length := by
    conv_rhs => rw [hp]
    rw [List.length_append]
    exact Nat.le_add_left _ _
  -- The text behind the star, or the name when that would cut off too much.
  have hleaf : ∀ i leaf, leaf = (if i < abspath.length - (Path.getname abspath).length
      then abspath.drop (i - 1) else Path.getname abspath) →
      leaf <:+ abspath ∧ (Path.getname abspath).length ≤ leaf.length ∧
        (leaf.head? = some '/' → (Path.getname abspath).length < leaf.length) := by
    rintro i leaf rfl
    split
    · rename_i hi
      refine ⟨List.drop_suffix _ _, ?_, fun _ => ?_⟩
      · rw [List.length_drop]
        omega
      · rw [List.length_drop]
        omega
    · refine ⟨⟨a, hp.symm⟩, le_rfl, fun hslash => ?_⟩
      exact absurd (hname '/' (List.mem_of_mem_head? hslash)) (by decide)
  obtain ⟨hsuffix, hlong, hslash⟩ := hleaf (pattern.idxOf '*' + 1) _ rfl
  unfold replaced
  dsimp only
  generalize (if pattern.idxOf '*' + 1 < _ then _ else _ : Str) = leaf at hsuffix hlong hslash ⊢
  have htrimmed : Path.getname (if Str.startswith leaf ['/'] then leaf.drop 1 else leaf) =
      Path.getname abspath := by
    split
    · rename_i hstart
      refine Path.getname_of_suffix ((List.drop_suffix 1 leaf).trans hsuffix) ?_
      have hlt := hslash (startswith_slash_iff.mp hstart)
      rw [List.length_drop]
      omega
    · exact Path.getname_of_suffix hsuffix hlong
  generalize (if Str.startswith leaf ['/'] then leaf.drop 1 else leaf) = leaf' at htrimmed ⊢
  have hkept : Path.getname (if '*' ∈ replacement then leaf' else Path.getname leaf') =
      Path.getname abspath := by
    split
    · exact htrimmed
    · rw [htrimmed]
      exact Path.getname_of_not_sep hname
  refine (Path.getname_join _ ?_ ?_).trans hkept
  · rw [hkept]
    exact isComp_of_hasName h
  · rw [hkept]
    exact h.2.2

theorem getname_dots (d : Str) (hd : ∀ c ∈ d, isSeparator c = false) (p : Str) :
    Path.getname (d ++ '/' :: p) = Path.getname p := by
  obtain ⟨ps, hps⟩ := Path.pieces_getname p
  refine @Path.getname_of_pieces _ (d :: ps) _ ?_
  rw [pieces_append_sep hd (by decide), hps]
  rfl

theorem getname_stripDots (p : Str) : Path.getname (stripDots p) = Path.getname p := by
  induction p using stripDots.induct with
  | case1 p ih => exact ih.trans (getname_dots dot (forall_mem_of_all (by decide)) p).symm
  | case2 p ih => exact ih.trans (getname_dots dotdot (forall_mem_of_all (by decide)) p).symm
  | case3 p hdot hdotdot =>
      rw [stripDots]
      · exact hdot
      · exact hdotdot

theorem not_startswith_stripDots (p : Str) : Str.startswith (stripDots p) ['.', '/'] = false ∧
    Str.startswith (stripDots p) ['.', '.', '/'] = false := by
  induction p using stripDots.induct with
  | case1 p ih => exact ih
  | case2 p ih => exact ih
  | case3 p hdot hdotdot =>
      rw [stripDots]
      · constructor
        · refine Bool.eq_false_iff.mpr fun h => ?_
          obtain ⟨q, rfl⟩ := Str.startswith_iff.mp h
          exact hdot q rfl
        · refine Bool.eq_false_iff.mpr fun h => ?_
          obtain ⟨q, rfl⟩ := Str.startswith_iff.mp h
          exact hdotdot q rfl
      · exact hdot
      · exact hdotdot

end Name

section Loop

variable {abspath : Str} {vpaths : List (Str × Tbl)} {ord : PairsOrder}

/-- The virtual path that a pattern gives, when it matches the path at its start. -/
def proposal (abspath : Str) (rp : Str × Str) : Option Str :=
  match Lua.find (Path.wildcards rp.2) abspath with
  | .ok (some (1, _)) => some (replaced rp.1 rp.2 abspath)
  | _ => none

def Raises (abspath pattern : Str) : Prop :=
  ∃ e, Lua.find (Path.wildcards pattern) abspath = .error e

/-- A round of the loop in `premake.project.getvpath`. -/
def follow (abspath vpath : Str) (rp : Str × Str) : Except BakeError Str :=
  match Lua.find (Path.wildcards rp.2) abspath with
  | .error e => .error (.pattern e)
  | .ok (some (1, _)) => .ok (replaced rp.1 rp.2 abspath)
  | .ok _ => .ok vpath

def patternsOf (e : Str × Tbl) : List (Str × Str) := e.2.arr.map fun pattern => (e.1, pattern)

theorem getvpath_eq : getvpath ord vpaths abspath =
    (((ord.enum vpaths).flatMap patternsOf).foldlM (follow abspath) abspath).map stripDots := by
  have hfollow : (fun (vpath : Str) (rp : Str × Str) =>
      match Lua.find (Path.wildcards rp.2) abspath with
      | .error e => (.error (.pattern e) : Except BakeError Str)
      | .ok (some (1, _)) => .ok (replaced rp.1 rp.2 abspath)
      | .ok _ => .ok vpath) = follow abspath := rfl
  rw [getvpath]
  change ((((ord.enum vpaths).flatMap patternsOf).foldlM (follow abspath) abspath).bind
    fun vpath => Except.ok (stripDots vpath)) = _
  cases ((ord.enum vpaths).flatMap patternsOf).foldlM (follow abspath) abspath with
  | error e => rfl
  | ok v => rfl

theorem follow_of_raises {rp : Str × Str} (h : Raises abspath rp.2) (vpath : Str) :
    follow abspath vpath rp = .error (.pattern .missingBracket) := by
  obtain ⟨e, he⟩ := h
  have hmatched : Lua.matched (Path.wildcards rp.2) abspath = .error e := by
    rw [Lua.matched, he]
    rfl
  rw [follow, he, Lua.error_wildcards hmatched]

theorem follow_of_not_raises {rp : Str × Str} (h : ¬ Raises abspath rp.2) (vpath : Str) :
    follow abspath vpath rp = .ok ((proposal abspath rp).getD vpath) := by
  unfold follow proposal
  cases hm : Lua.find (Path.wildcards rp.2) abspath with
  | error e => exact absurd ⟨e, hm⟩ h
  | ok m =>
      split
      · rename_i heq
        cases heq
      · rename_i heq
        cases heq
        rfl
      · rename_i hno heq
        split
        · rename_i heq'
          cases heq'
          cases heq
          exact (hno _ rfl).elim
        · rfl

/-- The loop raises an error when one of the patterns does, and otherwise the last pattern that
matches counts. -/
theorem foldlM_follow (rps : List (Str × Str)) (vpath : Str) :
    ((∃ rp ∈ rps, Raises abspath rp.2) ∧
      rps.foldlM (follow abspath) vpath = .error (.pattern .missingBracket)) ∨
    ((∀ rp ∈ rps, ¬ Raises abspath rp.2) ∧ rps.foldlM (follow abspath) vpath =
      .ok (((rps.filterMap (proposal abspath)).getLast?).getD vpath)) := by
  induction rps generalizing vpath with
  | nil => exact .inr ⟨fun rp hrp => absurd hrp List.not_mem_nil, rfl⟩
  | cons rp rps ih =>
      by_cases hraises : Raises abspath rp.2
      · refine .inl ⟨⟨rp, List.mem_cons_self, hraises⟩, ?_⟩
        rw [List.foldlM_cons, follow_of_raises hraises]
        rfl
      · have hstep : (rp :: rps).foldlM (follow abspath) vpath =
            rps.foldlM (follow abspath) ((proposal abspath rp).getD vpath) := by
          rw [List.foldlM_cons, follow_of_not_raises hraises]
          rfl
        rw [hstep]
        rcases ih ((proposal abspath rp).getD vpath) with
          ⟨⟨rp', hrp', hraises'⟩, heq⟩ | ⟨hnone, heq⟩
        · exact .inl ⟨⟨rp', List.mem_cons_of_mem _ hrp', hraises'⟩, heq⟩
        · refine .inr ⟨List.forall_mem_cons.mpr ⟨hraises, hnone⟩, heq.trans ?_⟩
          cases hv : proposal abspath rp with
          | none => rw [List.filterMap_cons_none hv, Option.getD_none]
          | some v =>
              rw [List.filterMap_cons_some hv, List.getLast?_cons, Option.getD_some,
                Option.getD_some]

/-- The virtual path that an entry of the table gives: its last pattern that matches counts. -/
def chosen (abspath : Str) (e : Str × Tbl) : Option Str :=
  ((patternsOf e).filterMap (proposal abspath)).getLast?

theorem getLast_flatMap (es : List (Str × Tbl)) :
    ((es.flatMap patternsOf).filterMap (proposal abspath)).getLast? =
      (es.filterMap (chosen abspath)).getLast? := by
  induction es with
  | nil => rfl
  | cons e es ih =>
      rw [List.flatMap_cons, List.filterMap_append, List.getLast?_append, ih]
      cases hv : chosen abspath e with
      | none =>
          rw [List.filterMap_cons_none hv]
          exact (congrArg _ hv).trans (Option.or_none)
      | some v =>
          rw [List.filterMap_cons_some hv, List.getLast?_cons]
          refine (congrArg _ hv).trans ?_
          cases (es.filterMap (chosen abspath)).getLast? with
          | none => rfl
          | some w => rfl

theorem getvpath_cases (ord : PairsOrder) (vpaths : List (Str × Tbl)) (abspath : Str) :
    ((∃ e ∈ vpaths, ∃ pattern ∈ e.2.arr, Raises abspath pattern) ∧
      getvpath ord vpaths abspath = .error (.pattern .missingBracket)) ∨
    ((∀ e ∈ vpaths, ∀ pattern ∈ e.2.arr, ¬ Raises abspath pattern) ∧
      getvpath ord vpaths abspath =
        .ok (stripDots ((((ord.enum vpaths).filterMap (chosen abspath)).getLast?).getD
          abspath))) := by
  have hmem : ∀ rp, rp ∈ (ord.enum vpaths).flatMap patternsOf ↔
      ∃ e ∈ vpaths, ∃ pattern ∈ e.2.arr, (e.1, pattern) = rp := by
    intro rp
    simp only [List.mem_flatMap, ord.mem_enum, patternsOf, List.mem_map]
  rw [getvpath_eq]
  rcases foldlM_follow ((ord.enum vpaths).flatMap patternsOf) abspath with
    ⟨⟨rp, hrp, hraises⟩, heq⟩ | ⟨hnone, heq⟩
  · obtain ⟨e, he, pattern, hpattern, rfl⟩ := (hmem rp).mp hrp
    refine .inl ⟨⟨e, he, pattern, hpattern, hraises⟩, ?_⟩
    rw [heq]
    rfl
  · refine .inr ⟨fun e he pattern hpattern => hnone (e.1, pattern) ((hmem _).mpr
      ⟨e, he, pattern, hpattern, rfl⟩), ?_⟩
    rw [heq, getLast_flatMap]
    rfl

end Loop

section Order

variable {vpaths : List (Str × Tbl)} {abspath : Str}

theorem perm_last {α : Type} (l : List α) (k : ℕ) : (l.eraseIdx k ++ l[k]?.toList).Perm l := by
  by_cases hk : k < l.length
  · rw [List.getElem?_eq_getElem hk]
    exact List.perm_append_comm.trans (List.getElem_cons_eraseIdx_perm hk)
  · rw [List.getElem?_eq_none (by omega), List.eraseIdx_of_length_le (by omega)]
    exact .of_eq (List.append_nil l)

def lastAt (k : ℕ) : PairsOrder := ⟨fun l => l.eraseIdx k ++ l[k]?.toList, fun l => perm_last l k⟩

/-- Any two entries of the table that match give the same virtual path. -/
def Agreeing (vpaths : List (Str × Tbl)) (abspath : Str) : Prop :=
  ∀ e ∈ vpaths, ∀ e' ∈ vpaths, ∀ v v', chosen abspath e = some v → chosen abspath e' = some v' →
    stripDots v = stripDots v'

theorem getvpath_lastAt (hraises : ∀ e ∈ vpaths, ∀ pattern ∈ e.2.arr, ¬ Raises abspath pattern)
    {e : Str × Tbl} (he : e ∈ vpaths) {v : Str} (hv : chosen abspath e = some v) :
    ∃ ord, getvpath ord vpaths abspath = .ok (stripDots v) := by
  obtain ⟨k, hk, rfl⟩ := List.getElem_of_mem he
  refine ⟨lastAt k, ?_⟩
  rcases getvpath_cases (lastAt k) vpaths abspath with ⟨⟨e', he', p, hp, hr⟩, -⟩ | ⟨-, heq⟩
  · exact absurd hr (hraises e' he' p hp)
  · have hlast : (lastAt k).enum vpaths = vpaths.eraseIdx k ++ [vpaths[k]] := by
      show vpaths.eraseIdx k ++ vpaths[k]?.toList = _
      rw [List.getElem?_eq_getElem hk]
      rfl
    rw [heq, hlast, List.filterMap_append, List.filterMap_cons_some hv, List.filterMap_nil,
      List.getLast?_concat, Option.getD_some]

theorem stripDots_getLast {l l' : List Str} (hmem : ∀ v, v ∈ l ↔ v ∈ l')
    (hsame : ∀ v v', v ∈ l → v' ∈ l → stripDots v = stripDots v') {p : Str} :
    stripDots (l.getLast?.getD p) = stripDots (l'.getLast?.getD p) := by
  cases hv : l.getLast? with
  | none =>
      have hnil : l' = [] := List.eq_nil_iff_forall_not_mem.mpr fun v hv' => by
        rw [← hmem, List.getLast?_eq_none_iff.mp hv] at hv'
        exact absurd hv' List.not_mem_nil
      rw [hnil]
      rfl
  | some v =>
      have hvl : v ∈ l := List.mem_of_getLast? hv
      cases hv' : l'.getLast? with
      | none =>
          rw [hmem, List.getLast?_eq_none_iff.mp hv'] at hvl
          exact absurd hvl List.not_mem_nil
      | some v' => exact hsame v v' hvl ((hmem v').mpr (List.mem_of_getLast? hv'))

/-- The virtual path of a file does not depend on the order of the table exactly when a pattern
raises an error, or all entries that match give the same path. -/
theorem getvpath_independent_iff (vpaths : List (Str × Tbl)) (abspath : Str) :
    (∀ ord ord', getvpath ord vpaths abspath = getvpath ord' vpaths abspath) ↔
      (∃ e ∈ vpaths, ∃ pattern ∈ e.2.arr, Raises abspath pattern) ∨ Agreeing vpaths abspath := by
  constructor
  · intro hsame
    by_cases hraises : ∃ e ∈ vpaths, ∃ pattern ∈ e.2.arr, Raises abspath pattern
    · exact .inl hraises
    · have hnone : ∀ e ∈ vpaths, ∀ pattern ∈ e.2.arr, ¬ Raises abspath pattern :=
        fun e he pattern hpattern hr => hraises ⟨e, he, pattern, hpattern, hr⟩
      refine .inr fun e he e' he' v v' hv hv' => ?_
      obtain ⟨ord, hord⟩ := getvpath_lastAt hnone he hv
      obtain ⟨ord', hord'⟩ := getvpath_lastAt hnone he' hv'
      exact Except.ok.inj (hord.symm.trans ((hsame ord ord').trans hord'))
  · intro hcond ord ord'
    rcases getvpath_cases ord vpaths abspath with ⟨⟨e, he, p, hp, hr⟩, heq⟩ | ⟨hnone, heq⟩
    · rcases getvpath_cases ord' vpaths abspath with ⟨-, heq'⟩ | ⟨hnone', -⟩
      · exact heq.trans heq'.symm
      · exact absurd hr (hnone' e he p hp)
    · rcases getvpath_cases ord' vpaths abspath with ⟨⟨e, he, p, hp, hr⟩, -⟩ | ⟨-, heq'⟩
      · exact absurd hr (hnone e he p hp)
      · rcases hcond with ⟨e, he, p, hp, hr⟩ | hagree
        · exact absurd hr (hnone e he p hp)
        · rw [heq, heq']
          have hmem : ∀ (ord : PairsOrder) v, v ∈ (ord.enum vpaths).filterMap (chosen abspath) ↔
              ∃ e ∈ vpaths, chosen abspath e = some v := by
            intro ord v
            simp only [List.mem_filterMap, ord.mem_enum]
          refine congrArg Except.ok (stripDots_getLast (fun v => ?_) fun v v' hv hv' => ?_)
          · rw [hmem, hmem]
          · obtain ⟨e, he, hv⟩ := (hmem ord v).mp hv
            obtain ⟨e', he', hv'⟩ := (hmem ord v').mp hv'
            exact hagree e he e' he' v v' hv hv'

def overlapping : List (Str × Tbl) :=
  [("Headers".toList, ⟨["**.h".toList], []⟩), ("Sources".toList, ⟨["src/**".toList], []⟩)]

theorem not_independent_overlapping : ¬ ∀ ord ord', getvpath ord overlapping "src/x.h".toList =
    getvpath ord' overlapping "src/x.h".toList := by
  intro h
  have hlast : getvpath .insertion overlapping "src/x.h".toList =
      .ok "Sources/x.h".toList := rfl
  have hfirst : getvpath (lastAt 0) overlapping "src/x.h".toList =
      .ok "Headers/x.h".toList := rfl
  exact absurd (Except.ok.inj (hlast.symm.trans ((h _ _).trans hfirst))) (by decide)

end Order

section Kept

variable {vpaths : List (Str × Tbl)} {abspath : Str}

/-- The virtual path of a file ends in the name of the file, and no dots are in front. -/
def KeepsName (vpaths : List (Str × Tbl)) (abspath : Str) : Prop :=
  ∀ ord, ∃ vpath, getvpath ord vpaths abspath = .ok vpath ∧
    Path.getname vpath = Path.getname abspath ∧
    Str.startswith vpath ['.', '/'] = false ∧ Str.startswith vpath ['.', '.', '/'] = false

theorem getname_of_chosen (h : HasName abspath) {e : Str × Tbl} {v : Str}
    (hv : chosen abspath e = some v) : Path.getname v = Path.getname abspath := by
  obtain ⟨rp, -, hrp⟩ := List.mem_filterMap.mp (List.mem_of_getLast? hv)
  unfold proposal at hrp
  split at hrp
  · rw [← Option.some.inj hrp]
    exact getname_replaced h rp.1 rp.2
  · cases hrp

/-- A virtual path keeps the name of the file unless a pattern of the table raises an error. -/
theorem keepsName_iff (h : HasName abspath) : KeepsName vpaths abspath ↔
    ∀ e ∈ vpaths, ∀ pattern ∈ e.2.arr, ¬ Raises abspath pattern := by
  constructor
  · intro hkeeps e he pattern hpattern hraises
    obtain ⟨vpath, hvpath, -⟩ := hkeeps .insertion
    rcases getvpath_cases .insertion vpaths abspath with ⟨-, heq⟩ | ⟨hnone, -⟩
    · cases heq.symm.trans hvpath
    · exact hnone e he pattern hpattern hraises
  · intro hnone ord
    rcases getvpath_cases ord vpaths abspath with ⟨⟨e, he, p, hp, hr⟩, -⟩ | ⟨-, heq⟩
    · exact absurd hr (hnone e he p hp)
    · refine ⟨_, heq, ?_, not_startswith_stripDots _⟩
      rw [getname_stripDots]
      cases hlast : ((ord.enum vpaths).filterMap (chosen abspath)).getLast? with
      | none => rfl
      | some v =>
          obtain ⟨e, -, hv⟩ := List.mem_filterMap.mp (List.mem_of_getLast? hlast)
          exact getname_of_chosen h hv

def sources : List (Str × Tbl) := [("Sources".toList, ⟨["src/**".toList], []⟩)]

theorem keepsName_sources : KeepsName sources "src/core/x.c".toList := by
  refine (keepsName_iff (by decide)).mpr fun e he pattern hpattern hraises => ?_
  obtain rfl := List.mem_singleton.mp he
  obtain rfl := List.mem_singleton.mp hpattern
  obtain ⟨err, herr⟩ := hraises
  cases herr

/-- A bracket that is not closed. -/
theorem not_keepsName_bracket :
    ¬ KeepsName [("Sources".toList, ⟨["src/[x.c".toList], []⟩)] "src/x.c".toList := by
  intro h
  obtain ⟨vpath, hvpath, -⟩ := h .insertion
  cases hvpath

end Kept

end Project

end Puremake
