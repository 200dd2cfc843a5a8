import Puremake.Bake.Names
import Puremake.Bake.Session
import Puremake.Search.Basic

/-!
# Usage projects and the projects that a configuration is connected to

A configuration names other projects in its `uses`, and the usage projects of
these names may do so again. When all of them are found, the `links` of the
usage projects are followed in the same way, where only static libraries are
gone through. Both searches enter what they find in a table of connections and
share the list of the names that were found.

The names are the nodes of a graph, and each of the two searches is a search in
it. So the connections are two least closed sets, whatever the order in which
`pairs` lists the first of them.
-/

namespace Puremake

open FoldRun Search

inductive SearchField
  | uses
  | links
  deriving DecidableEq, Repr

/-- `cfg[searchField]` -/
def BakedConfig.search (cfg : BakedConfig) : SearchField → Option Tbl
  | .uses => cfg.fields .uses
  | .links => cfg.fields .links

/-- The kind of a configuration, where the one of the whole project stands in for a
kind that is not set. -/
def BakedProject.kindOf (prj : BakedProject) (cfg : BakedConfig) : Option Str :=
  cfg.fields .kind <|> (prj.configs.lookup []).bind fun root => root.fields .kind

/-- `getCfgKind`, for a configuration of `prj`. -/
def getCfgKind (prj : BakedProject) : Option BakedConfig → Except BakeError (Option Str)
  | none => .error .indexNil
  | some cfg => .ok (prj.kindOf cfg)

def staticLib : Str := "StaticLib".toList

structure Connection where
  name : Str
  proj : Option BakedProject
  usageProj : BakedProject
  bLinkageOnly : Bool

/-- What the searches change: the connections by their names, and the names. -/
structure Connections where
  dstArray : List (Str × Connection)
  foundList : List Str

/-- The last project and the last usage project of a name in lower case. -/
def namedProjects (prjs : List BakedProject) (testName : Str) :
    Option BakedProject × Option BakedProject :=
  prjs.foldl (fun found prj =>
    if Str.lower prj.name = testName then
      if prj.usage then (found.1, some prj) else (some prj, found.2)
    else found) (none, none)

/-- One round of the first loop of `getprojrec`: a name that is new and has a usage
project is entered, and the usage project is kept for the second loop. -/
def enterName (prjs : List BakedProject) (bLinkage : Bool)
    (st : Connections × List BakedProject) (useName : Str) : Connections × List BakedProject :=
  let testName := Str.lower useName
  if testName ∈ st.1.foundList then st
  else
    match namedProjects prjs testName with
    | (theProj, some theUseProj) =>
        (⟨assign testName ⟨testName, theProj, theUseProj, bLinkage⟩ st.1.dstArray,
          st.1.foundList ++ [testName]⟩, st.2 ++ [theUseProj])
    | (_, none) => st

/-- Whether the search goes on from a configuration of a usage project. -/
def recurses (searchField : SearchField) (usePrj : BakedProject) (cfg : Option BakedConfig) :
    Except BakeError Bool :=
  if searchField ≠ .links then .ok true
  else do return (← getCfgKind usePrj cfg) = some staticLib

def getprojrec (prjs : List BakedProject) (cfgname : Str) (searchField : SearchField)
    (bLinkage : Bool) : ℕ → Connections → Option BakedConfig → Except BakeError Connections
  | _, st, none => .ok st
  | 0, _, some _ => .error .outOfFuel
  | fuel + 1, st, some cfg =>
      match cfg.search searchField with
      | none => .error .indexNil
      | some useNames =>
          let (st, foundUsePrjs) := useNames.arr.foldl (enterName prjs bLinkage) (st, [])
          foundUsePrjs.foldlM (fun st usePrj => do
            let cfg := usePrj.configs.lookup cfgname
            if ← recurses searchField usePrj cfg then
              getprojrec prjs cfgname searchField bLinkage fuel st cfg
            else return st) st

/-- `getprojectsconnections`, for a configuration of the project `own`. -/
def getprojectsconnections (ord : PairsOrder) (fuel : ℕ) (prjs : List BakedProject) (own : Str)
    (cfg : BakedConfig) (cfgname : Str) : Except BakeError (List (Str × Connection)) := do
  let st ← getprojrec prjs cfgname .uses false fuel ⟨[], [Str.lower own]⟩ (some cfg)
  let linked ← (ord.enum st.dstArray).foldlM (fun linked (_, prjEntry) =>
    getprojrec prjs cfgname .links true fuel linked (prjEntry.usageProj.configs.lookup cfgname))
    (⟨[], st.foundList⟩ : Connections)
  return (ord.enum linked.dstArray).foldl
    (fun dstArray (prjName, prjEntry) => assign prjName prjEntry dstArray) st.dstArray

section Graph

variable (prjs : List BakedProject)

def usageProject (n : Str) : Option BakedProject := (namedProjects prjs n).2

def HasUsage (n : Str) : Prop := ∃ prj ∈ prjs, prj.usage ∧ Str.lower prj.name = n

def connection (bLinkage : Bool) (n : Str) : Option Connection :=
  (usageProject prjs n).map fun usePrj => ⟨n, (namedProjects prjs n).1, usePrj, bLinkage⟩

def BakedConfig.names (cfg : BakedConfig) (f : SearchField) : List Str :=
  ((cfg.search f).getD Tbl.empty).arr.map Str.lower

def usableNames (cfg : BakedConfig) (f : SearchField) : List Str :=
  (cfg.names f).filter fun n => (usageProject prjs n).isSome

/-- The configuration that stands for a name in the searches for `k`. -/
def usageConfig (k n : Str) : Option BakedConfig :=
  (usageProject prjs n).bind fun usePrj => usePrj.configs.lookup k

def usageKind (k n : Str) : Option Str :=
  (usageProject prjs n).bind fun usePrj => (usePrj.configs.lookup k).bind usePrj.kindOf

def succ (k : Str) (f : SearchField) (n : Str) : Option (List Str) :=
  if f = .uses ∨ usageKind prjs k n = some staticLib then
    (usageConfig prjs k n).map fun cfg => usableNames prjs cfg f
  else none

end Graph

/-- The table of a search holds the connections to the names that it found. -/
structure TableFor (prjs : List BakedProject) (bLinkage : Bool) (known : List Str)
    (st : Connections) : Prop where
  known_subset : known ⊆ st.foundList
  nodup : (st.dstArray.map Prod.fst).Nodup
  lookup : ∀ n c, st.dstArray.lookup n = some c ↔
    (n ∈ st.foundList ∧ n ∉ known) ∧ connection prjs bLinkage n = some c

section Names

variable {prjs : List BakedProject} {n : Str}

theorem usageProject_append (l : List BakedProject) (prj : BakedProject) :
    usageProject (l ++ [prj]) n =
      if Str.lower prj.name = n ∧ prj.usage then some prj else usageProject l n := by
  rw [usageProject, usageProject, namedProjects, namedProjects, List.foldl_append]
  simp only [List.foldl_cons, List.foldl_nil]
  split
  · rename_i hname
    cases hu : prj.usage <;> simp [hname]
  · rename_i hname
    simp [hname]

theorem usageProject_mem {prj : BakedProject} (h : usageProject prjs n = some prj) :
    prj ∈ prjs ∧ prj.usage ∧ Str.lower prj.name = n := by
  induction prjs using List.reverseRecOn with
  | nil => cases h
  | append_singleton l p ih =>
      rw [usageProject_append] at h
      split at h
      · rename_i hp
        obtain rfl := Option.some.inj h
        exact ⟨by simp, hp.2, hp.1⟩
      · obtain ⟨hmem, hu, hname⟩ := ih h
        exact ⟨List.mem_append_left _ hmem, hu, hname⟩

theorem usageProject_isSome : (usageProject prjs n).isSome ↔ HasUsage prjs n := by
  induction prjs using List.reverseRecOn with
  | nil => simp [usageProject, namedProjects, HasUsage]
  | append_singleton l p ih =>
      rw [usageProject_append]
      split
      · rename_i hp
        simp only [Option.isSome_some, true_iff]
        exact ⟨p, by simp, hp.2, hp.1⟩
      · rename_i hp
        rw [ih]
        constructor
        · rintro ⟨q, hq, hu, hname⟩
          exact ⟨q, List.mem_append_left _ hq, hu, hname⟩
        · rintro ⟨q, hq, hu, hname⟩
          rcases List.mem_append.mp hq with hq | hq
          · exact ⟨q, hq, hu, hname⟩
          · obtain rfl := List.mem_singleton.mp hq
            exact absurd ⟨hname, hu⟩ hp

theorem mem_usableNames {cfg : BakedConfig} {f : SearchField} :
    n ∈ usableNames prjs cfg f ↔ n ∈ cfg.names f ∧ HasUsage prjs n := by
  rw [usableNames, List.mem_filter, usageProject_isSome]

end Names

section Loops

variable {prjs : List BakedProject} {bLinkage : Bool} {known : List Str}

theorem TableFor.enter {st : Connections} (h : TableFor prjs bLinkage known st) {n : Str}
    (hn : n ∉ st.foundList) {c : Connection} (hc : connection prjs bLinkage n = some c) :
    TableFor prjs bLinkage known ⟨assign n c st.dstArray, st.foundList ++ [n]⟩ where
  known_subset := List.subset_append_of_subset_left _ h.known_subset
  nodup := nodup_keys_assign h.nodup
  lookup := by
    intro m d
    by_cases hm : m = n
    · subst hm
      have hknown : m ∉ known := fun hk => hn (h.known_subset hk)
      simp [lookup_assign_self, hknown, hc]
    · rw [lookup_assign_of_ne hm, h.lookup]
      simp [hm]

theorem foldl_enterName {st : Connections} (h : TableFor prjs bLinkage known st)
    (acc : List BakedProject) (useNames : List Str) :
    ∃ dst, useNames.foldl (enterName prjs bLinkage) (st, acc) =
        (⟨dst, st.foundList ++ fresh st.foundList
            ((useNames.map Str.lower).filter fun n => (usageProject prjs n).isSome)⟩,
          acc ++ (fresh st.foundList
            ((useNames.map Str.lower).filter fun n => (usageProject prjs n).isSome)).filterMap
              (usageProject prjs)) ∧
      TableFor prjs bLinkage known ⟨dst, st.foundList ++ fresh st.foundList
        ((useNames.map Str.lower).filter fun n => (usageProject prjs n).isSome)⟩ := by
  induction useNames generalizing st acc with
  | nil => exact ⟨st.dstArray, by simp [fresh], by simpa [fresh] using h⟩
  | cons useName useNames ih =>
      rw [List.foldl_cons, List.map_cons, List.filter_cons, enterName]
      by_cases hfound : Str.lower useName ∈ st.foundList
      · rw [if_pos hfound]
        have hfresh : ∀ l, fresh st.foundList (Str.lower useName :: l) = fresh st.foundList l := by
          intro l
          rw [fresh, if_pos hfound]
        cases (usageProject prjs (Str.lower useName)).isSome with
        | true =>
            rw [if_pos rfl, hfresh]
            exact ih h acc
        | false => exact ih h acc
      · rw [if_neg hfound]
        cases huse : usageProject prjs (Str.lower useName) with
        | none =>
            obtain ⟨theProj, hnamed⟩ : ∃ theProj,
                namedProjects prjs (Str.lower useName) = (theProj, none) :=
              ⟨_, Prod.ext rfl huse⟩
            rw [hnamed]
            exact ih h acc
        | some usePrj =>
            obtain ⟨theProj, hnamed⟩ : ∃ theProj,
                namedProjects prjs (Str.lower useName) = (theProj, some usePrj) :=
              ⟨_, Prod.ext rfl huse⟩
            have hc : connection prjs bLinkage (Str.lower useName) =
                some ⟨Str.lower useName, theProj, usePrj, bLinkage⟩ := by
              rw [connection, huse, hnamed]
              rfl
            obtain ⟨dst, hrun, htbl⟩ := ih (h.enter hfound hc) (acc ++ [usePrj])
            rw [hnamed]
            refine ⟨dst, ?_, ?_⟩
            · rw [Option.isSome_some, if_pos rfl, fresh, if_neg hfound, List.filterMap_cons, huse]
              simpa using hrun
            · rw [Option.isSome_some, if_pos rfl, fresh, if_neg hfound]
              simpa using htbl

end Loops

section Searches

variable {prjs : List BakedProject} {k : Str} {f : SearchField} {bLinkage : Bool}
  {known : List Str}

/-- Every usage project has a configuration under the key, with its lists. -/
def Ready (prjs : List BakedProject) (k : Str) : Prop :=
  ∀ prj ∈ prjs, ∃ cfg, prj.configs.lookup k = some cfg ∧ ∀ f, (cfg.search f).isSome

theorem recurses_eq (f : SearchField) (usePrj : BakedProject) (cfg : BakedConfig) :
    recurses f usePrj (some cfg) =
      .ok (decide (f = .uses ∨ usePrj.kindOf cfg = some staticLib)) := by
  cases f with
  | uses => rfl
  | links =>
      rw [recurses, if_neg (by simp)]
      simp [getCfgKind, bind, Except.bind, pure, Except.pure]

theorem getprojrec_of_visit (hready : Ready prjs k) {fuel : ℕ} {st : Connections}
    {cfg : BakedConfig} (hcfg : (cfg.search f).isSome) {found : List Str}
    (hvisit : visit BakeError.outOfFuel (succ prjs k f) fuel st.foundList
      (usableNames prjs cfg f) = .ok found) (htbl : TableFor prjs bLinkage known st) :
    ∃ st', getprojrec prjs k f bLinkage fuel st (some cfg) = .ok st' ∧
      st'.foundList = found ∧ TableFor prjs bLinkage known st' := by
  induction fuel generalizing st cfg found with
  | zero => cases hvisit
  | succ fuel ih =>
      obtain ⟨useNames, huse⟩ := Option.isSome_iff_exists.mp hcfg
      have hnames : usableNames prjs cfg f =
          (useNames.arr.map Str.lower).filter fun n => (usageProject prjs n).isSome := by
        rw [usableNames, BakedConfig.names, huse]
        rfl
      obtain ⟨dst, hloop, htbl'⟩ := foldl_enterName htbl [] useNames.arr
      rw [visit, hnames] at hvisit
      rw [getprojrec, huse]
      simp only [hloop, List.nil_append, List.foldlM_filterMap]
      refine foldlM_simulation (P := fun _ _ => True)
        (R := fun _ (s : List Str) (t : Connections) =>
          t.foundList = s ∧ TableFor prjs bLinkage known t)
        ?_ ⟨rfl, htbl'⟩ (along_of_forall (fun _ _ => trivial) _ _) hvisit
      rintro s t n ns s' ⟨rfl, ht⟩ - hstep
      cases hprj : usageProject prjs n with
      | none =>
          have hsucc : succ prjs k f n = none := by simp [succ, usageConfig, hprj]
          rw [hsucc] at hstep
          exact ⟨t, rfl, Except.ok.inj hstep, ht⟩
      | some usePrj =>
          obtain ⟨cfg', hcfg', hsearch⟩ := hready usePrj (usageProject_mem hprj).1
          have hkind : usageKind prjs k n = usePrj.kindOf cfg' := by simp [usageKind, hprj, hcfg']
          have hrec := recurses_eq f usePrj cfg'
          rw [← hkind] at hrec
          simp only [hcfg', hrec]
          by_cases hgo : f = .uses ∨ usageKind prjs k n = some staticLib
          · have hsucc : succ prjs k f n = some (usableNames prjs cfg' f) := by
              rw [succ, if_pos hgo, usageConfig, hprj, Option.bind_some, hcfg']
              rfl
            rw [hsucc] at hstep
            obtain ⟨t', hrun, hR⟩ := ih (hsearch f) hstep ht
            refine ⟨t', bind_eq_ok.mpr ⟨true, by rw [decide_eq_true hgo], ?_⟩, hR⟩
            simpa using hrun
          · have hsucc : succ prjs k f n = none := if_neg hgo
            rw [hsucc] at hstep
            exact ⟨t, bind_eq_ok.mpr ⟨false, by rw [decide_eq_false hgo], rfl⟩,
              Except.ok.inj hstep, ht⟩

theorem edge_succ_iff {m n : Str} : Edge (succ prjs k f) m n ↔
    (f = .uses ∨ usageKind prjs k m = some staticLib) ∧
      ∃ cfg ∈ usageConfig prjs k m, n ∈ usableNames prjs cfg f := by
  constructor
  · rintro ⟨ns, hns, hn⟩
    rw [Option.mem_def, succ] at hns
    split at hns
    · rename_i hgo
      obtain ⟨cfg, hcfg, rfl⟩ := Option.map_eq_some_iff.mp hns
      exact ⟨hgo, cfg, hcfg, hn⟩
    · cases hns
  · rintro ⟨hgo, cfg, hcfg, hn⟩
    refine ⟨usableNames prjs cfg f, ?_, hn⟩
    rw [Option.mem_def, succ, if_pos hgo, hcfg]
    rfl

def projectNames (prjs : List BakedProject) : Finset Str :=
  (prjs.map fun prj => Str.lower prj.name).toFinset

theorem mem_projectNames {cfg : BakedConfig} {n : Str} (h : n ∈ usableNames prjs cfg f) :
    n ∈ projectNames prjs := by
  obtain ⟨-, prj, hprj, -, rfl⟩ := mem_usableNames.mp h
  exact List.mem_toFinset.mpr (List.mem_map.mpr ⟨prj, hprj, rfl⟩)

theorem getprojrec_found (hready : Ready prjs k) {fuel : ℕ} (hfuel : prjs.length < fuel)
    {st : Connections} {cfg : BakedConfig} (hcfg : (cfg.search f).isSome)
    (htbl : TableFor prjs bLinkage known st) :
    ∃ st', getprojrec prjs k f bLinkage fuel st (some cfg) = .ok st' ∧
      TableFor prjs bLinkage known st' ∧
      Found (succ prjs k f) st.foundList (usableNames prjs cfg f) st'.foundList := by
  have hcard : (projectNames prjs \ st.foundList.toFinset).card < fuel := by
    refine lt_of_le_of_lt (Finset.card_le_card Finset.sdiff_subset) ?_
    refine lt_of_le_of_lt (List.toFinset_card_le _) ?_
    rwa [List.length_map]
  have hsucc : ∀ m n, Edge (succ prjs k f) m n → n ∈ projectNames prjs := by
    intro m n hmn
    obtain ⟨-, cfg, -, hn⟩ := edge_succ_iff.mp hmn
    exact mem_projectNames hn
  obtain ⟨found, hvisit⟩ := visit_ends BakeError.outOfFuel hsucc
    (fun n hn => mem_projectNames hn) hcard
  obtain ⟨st', hrun, hfound, htbl'⟩ := getprojrec_of_visit hready hcfg hvisit htbl
  refine ⟨st', hrun, htbl', ?_⟩
  rw [hfound]
  exact visit_found hvisit

/-- The names that the links of a connected usage project refer to. -/
def linkedNames (prjs : List BakedProject) (k : Str) (prjEntry : Connection) : List Str :=
  (prjEntry.usageProj.configs.lookup k).elim [] fun cfg => usableNames prjs cfg .links

/-- The loop of `getprojectsconnections` over the connections that were found first. -/
theorem linkLoop_found (hready : Ready prjs k) {fuel : ℕ} (hfuel : prjs.length < fuel)
    {entries : List (Str × Connection)} (hentries : ∀ e ∈ entries, e.2.usageProj ∈ prjs)
    {linked : Connections} (htbl : TableFor prjs true known linked) :
    ∃ linked', entries.foldlM (fun linked (e : Str × Connection) =>
        getprojrec prjs k .links true fuel linked (e.2.usageProj.configs.lookup k)) linked =
          .ok linked' ∧
      TableFor prjs true known linked' ∧
      Found (succ prjs k .links) linked.foundList
        (entries.flatMap fun e => linkedNames prjs k e.2) linked'.foundList := by
  induction entries generalizing linked with
  | nil => exact ⟨linked, rfl, htbl, Found.refl _ _⟩
  | cons e entries ih =>
      obtain ⟨cfg, hcfg, hsearch⟩ := hready _ (hentries e (by simp))
      obtain ⟨mid, hrun, htbl', hfound⟩ :=
        getprojrec_found (f := .links) hready hfuel (hsearch .links) htbl
      obtain ⟨linked', hloop, htbl'', hfound'⟩ := ih (fun e he => hentries e (by simp [he])) htbl'
      refine ⟨linked', foldlM_cons_eq_ok.mpr ⟨mid, by rw [hcfg]; exact hrun, hloop⟩, htbl'', ?_⟩
      rw [List.flatMap_cons, linkedNames, hcfg]
      exact hfound.trans hfound'

end Searches

/-- A set that contains what the `uses` of a configuration lead to: every name other
than that of the project itself that has a usage project and is mentioned by the
configuration or by the usage configuration of a member. -/
def UsesClosed (prjs : List BakedProject) (own k : Str) (cfg : BakedConfig) (S : Set Str) : Prop :=
  ∀ n, n ≠ Str.lower own → HasUsage prjs n →
    (n ∈ cfg.names .uses ∨ ∃ m ∈ S, ∃ ucfg ∈ usageConfig prjs k m, n ∈ ucfg.names .uses) → n ∈ S

/-- The same for the `links`, which start from the members of `U` and go on through
static libraries. -/
def LinksClosed (prjs : List BakedProject) (own k : Str) (U S : Set Str) : Prop :=
  ∀ n, n ≠ Str.lower own → n ∉ U → HasUsage prjs n →
    (∃ m, (m ∈ U ∨ m ∈ S ∧ usageKind prjs k m = some staticLib) ∧
      ∃ ucfg ∈ usageConfig prjs k m, n ∈ ucfg.names .links) → n ∈ S

section Closure

variable {prjs : List BakedProject} {own k : Str} {cfg : BakedConfig}

theorem usesClosed_iff {S : Set Str} : UsesClosed prjs own k cfg S ↔
    Closed (· ∈ [Str.lower own]) (· ∈ usableNames prjs cfg .uses)
      (Edge (succ prjs k .uses)) S := by
  constructor
  · intro h n hnew hn
    refine h n (by simpa using hnew) ?_ ?_
    · rcases hn with hn | ⟨m, -, hmn⟩
      · exact (mem_usableNames.mp hn).2
      · obtain ⟨-, ucfg, -, hn⟩ := edge_succ_iff.mp hmn
        exact (mem_usableNames.mp hn).2
    · rcases hn with hn | ⟨m, hm, hmn⟩
      · exact Or.inl (mem_usableNames.mp hn).1
      · obtain ⟨-, ucfg, hucfg, hn⟩ := edge_succ_iff.mp hmn
        exact Or.inr ⟨m, hm, ucfg, hucfg, (mem_usableNames.mp hn).1⟩
  · intro h n hnew huse hn
    refine h n (by simpa using hnew) ?_
    rcases hn with hn | ⟨m, hm, ucfg, hucfg, hn⟩
    · exact Or.inl (mem_usableNames.mpr ⟨hn, huse⟩)
    · exact Or.inr ⟨m, hm, edge_succ_iff.mpr
        ⟨Or.inl rfl, ucfg, hucfg, mem_usableNames.mpr ⟨hn, huse⟩⟩⟩

/-- The names that the links of the members of a set mention. -/
def LinkSeed (prjs : List BakedProject) (k : Str) (U : Set Str) (n : Str) : Prop :=
  ∃ m ∈ U, ∃ ucfg ∈ usageConfig prjs k m, n ∈ usableNames prjs ucfg .links

theorem linksClosed_iff {U S : Set Str} : LinksClosed prjs own k U S ↔
    Closed (fun n => n = Str.lower own ∨ n ∈ U) (LinkSeed prjs k U)
      (Edge (succ prjs k .links)) S := by
  constructor
  · intro h n hnew hn
    rw [not_or] at hnew
    rcases hn with ⟨m, hm, ucfg, hucfg, hn⟩ | ⟨m, hm, hmn⟩
    · obtain ⟨hn, huse⟩ := mem_usableNames.mp hn
      exact h n hnew.1 hnew.2 huse ⟨m, Or.inl hm, ucfg, hucfg, hn⟩
    · obtain ⟨hstatic, ucfg, hucfg, hn⟩ := edge_succ_iff.mp hmn
      obtain ⟨hn, huse⟩ := mem_usableNames.mp hn
      exact h n hnew.1 hnew.2 huse
        ⟨m, Or.inr ⟨hm, hstatic.resolve_left (by decide)⟩, ucfg, hucfg, hn⟩
  · rintro h n hown hU huse ⟨m, hm | ⟨hm, hstatic⟩, ucfg, hucfg, hn⟩
    · exact h n (by simp [hown, hU])
        (Or.inl ⟨m, hm, ucfg, hucfg, mem_usableNames.mpr ⟨hn, huse⟩⟩)
    · exact h n (by simp [hown, hU]) (Or.inr ⟨m, hm, edge_succ_iff.mpr
        ⟨Or.inr hstatic, ucfg, hucfg, mem_usableNames.mpr ⟨hn, huse⟩⟩⟩)

def usesOf (prjs : List BakedProject) (own k : Str) (cfg : BakedConfig) : Set Str :=
  {n | Reach (· ∈ [Str.lower own]) (· ∈ usableNames prjs cfg .uses) (Edge (succ prjs k .uses)) n}

def linksOf (prjs : List BakedProject) (own k : Str) (U : Set Str) : Set Str :=
  {n | Reach (fun n => n = Str.lower own ∨ n ∈ U) (LinkSeed prjs k U)
    (Edge (succ prjs k .links)) n}

theorem isLeast_usesOf : IsLeast {S | UsesClosed prjs own k cfg S} (usesOf prjs own k cfg) := by
  simp only [usesClosed_iff]
  exact isLeast_reach

theorem isLeast_linksOf (U : Set Str) :
    IsLeast {S | LinksClosed prjs own k U S} (linksOf prjs own k U) := by
  simp only [linksClosed_iff]
  exact isLeast_reach

theorem connection_mem {bLinkage : Bool} {n : Str} {c : Connection}
    (h : connection prjs bLinkage n = some c) :
    usageProject prjs n = some c.usageProj ∧ c.usageProj ∈ prjs := by
  obtain ⟨usePrj, huse, rfl⟩ := Option.map_eq_some_iff.mp h
  exact ⟨huse, (usageProject_mem huse).1⟩

theorem lookup_of_found {st : Connections}
    (htbl : TableFor prjs false [Str.lower own] st)
    (hfound : Found (succ prjs k .uses) [Str.lower own] (usableNames prjs cfg .uses) st.foundList)
    (n : Str) (c : Connection) : st.dstArray.lookup n = some c ↔
      n ∈ usesOf prjs own k cfg ∧ connection prjs false n = some c := by
  rw [htbl.lookup, hfound.mem_iff]
  refine and_congr_left fun _ => ?_
  constructor
  · exact fun ⟨h, hnew⟩ => h.resolve_left hnew
  · exact fun h => ⟨Or.inr h, h.not_avoid⟩

theorem hasUsage_of_reach {avoid : Str → Prop} {seed : Str → Prop} {f : SearchField} {n : Str}
    (hseed : ∀ n, seed n → HasUsage prjs n)
    (h : Reach avoid seed (Edge (succ prjs k f)) n) : HasUsage prjs n := by
  cases h with
  | seed hn _ => exact hseed n hn
  | step _ hmn _ =>
      obtain ⟨-, ucfg, -, hn⟩ := edge_succ_iff.mp hmn
      exact (mem_usableNames.mp hn).2

/-- The second search starts from the links of the members of `usesOf`. -/
theorem linkSeed_iff (ord : PairsOrder) {st : Connections}
    (htbl : TableFor prjs false [Str.lower own] st)
    (hfound : Found (succ prjs k .uses) [Str.lower own] (usableNames prjs cfg .uses) st.foundList)
    (n : Str) : (n ∈ (ord.enum st.dstArray).flatMap fun e => linkedNames prjs k e.2) ↔
      LinkSeed prjs k (usesOf prjs own k cfg) n := by
  have hlinked : ∀ c : Connection, n ∈ linkedNames prjs k c ↔
      ∃ ucfg ∈ c.usageProj.configs.lookup k, n ∈ usableNames prjs ucfg .links := by
    intro c
    rw [linkedNames]
    cases c.usageProj.configs.lookup k <;> simp
  rw [List.mem_flatMap]
  constructor
  · rintro ⟨⟨m, c⟩, he, hn⟩
    rw [ord.mem_enum, ← lookup_eq_some_iff_mem htbl.nodup, lookup_of_found htbl hfound] at he
    obtain ⟨ucfg, hucfg, hn⟩ := (hlinked c).mp hn
    refine ⟨m, he.1, ucfg, ?_, hn⟩
    rw [usageConfig, (connection_mem he.2).1]
    exact hucfg
  · rintro ⟨m, hm, ucfg, hucfg, hn⟩
    obtain ⟨usePrj, huse, hlookup⟩ := Option.bind_eq_some_iff.mp hucfg
    let c : Connection := ⟨m, (namedProjects prjs m).1, usePrj, false⟩
    have hc : connection prjs false m = some c := by
      rw [connection, huse]
      rfl
    refine ⟨(m, c), ?_, (hlinked c).mpr ⟨ucfg, hlookup, hn⟩⟩
    rw [ord.mem_enum, ← lookup_eq_some_iff_mem htbl.nodup, lookup_of_found htbl hfound]
    exact ⟨hm, hc⟩

/-- The connections of a configuration when every project is ready. -/
theorem getprojectsconnections_of_ready (own : Str) (hready : Ready prjs k)
    (hcfg : (cfg.search .uses).isSome) (ord : PairsOrder) {fuel : ℕ}
    (hfuel : prjs.length < fuel) :
    ∃ res, getprojectsconnections ord fuel prjs own cfg k = .ok res ∧
      ∀ n c, res.lookup n = some c ↔
        n ∈ usesOf prjs own k cfg ∧ connection prjs false n = some c ∨
        n ∈ linksOf prjs own k (usesOf prjs own k cfg) ∧ connection prjs true n = some c := by
  have hstart : TableFor prjs false [Str.lower own] ⟨[], [Str.lower own]⟩ :=
    ⟨List.Subset.refl _, by simp, by simp⟩
  obtain ⟨st, hrun, htbl, hfound⟩ := getprojrec_found hready hfuel hcfg hstart
  have hstart' : TableFor prjs true st.foundList ⟨[], st.foundList⟩ :=
    ⟨List.Subset.refl _, by simp, by simp⟩
  have hentries : ∀ e ∈ ord.enum st.dstArray, e.2.usageProj ∈ prjs := by
    rintro ⟨n, c⟩ he
    rw [ord.mem_enum, ← lookup_eq_some_iff_mem htbl.nodup, htbl.lookup] at he
    exact (connection_mem he.2).2
  obtain ⟨linked, hloop, htbl', hfound'⟩ := linkLoop_found hready hfuel hentries hstart'
  refine ⟨_, bind_eq_ok.mpr ⟨st, hrun, bind_eq_ok.mpr ⟨linked, hloop, rfl⟩⟩, fun n c => ?_⟩
  have hnodup : ((ord.enum linked.dstArray).map Prod.fst).Nodup :=
    ((ord.perm linked.dstArray).map Prod.fst).nodup_iff.mpr htbl'.nodup
  have havoid : (· ∈ st.foundList) = fun n => n = Str.lower own ∨ n ∈ usesOf prjs own k cfg := by
    funext n
    rw [hfound.mem_iff, List.mem_singleton]
    rfl
  have hseed : (· ∈ (ord.enum st.dstArray).flatMap fun e => linkedNames prjs k e.2) =
      LinkSeed prjs k (usesOf prjs own k cfg) :=
    funext fun n => propext (linkSeed_iff ord htbl hfound n)
  have hlinks : ∀ n, n ∈ linked.foundList ∧ n ∉ st.foundList ↔
      n ∈ linksOf prjs own k (usesOf prjs own k cfg) := by
    intro n
    rw [hfound'.mem_iff, linksOf, Set.mem_ofPred_eq, ← hseed, ← havoid]
    constructor
    · exact fun ⟨h, hnew⟩ => h.resolve_left hnew
    · exact fun h => ⟨Or.inr h, h.not_avoid⟩
  have hlinked : ∀ c, (n, c) ∈ ord.enum linked.dstArray ↔
      n ∈ linksOf prjs own k (usesOf prjs own k cfg) ∧ connection prjs true n = some c := by
    intro c
    rw [ord.mem_enum, ← lookup_eq_some_iff_mem htbl'.nodup, htbl'.lookup, hlinks]
  rw [lookup_foldl_assign hnodup, hlinked, lookup_of_found htbl hfound, or_comm]
  refine or_congr_left (and_iff_right_of_imp ?_)
  -- a name that the first search found is not entered again by the second
  rintro ⟨hn, -⟩ hkey
  obtain ⟨⟨n', c'⟩, he, rfl⟩ := List.mem_map.mp hkey
  have hnew := ((hlinked c').mp he).1.not_avoid
  exact hnew (Or.inr hn)

theorem ready_of_bakeSolution {env : Env} {sln : Solution} {heap h : Heap}
    {baked : BakedSolution} (hbake : bakeSolution env sln heap = .ok (h, baked))
    {prj : BakedProject} (hprj : prj ∈ baked.projects) (hk : k ∈ prj.configs.map Prod.fst) :
    Ready baked.projects k := by
  intro prj' hprj'
  have hmem := mem_keys_of_bakeSolution hbake hprj hprj' hk
  obtain ⟨cfg, hcfg⟩ := Option.isSome_iff_exists.mp (lookup_isSome_iff_mem_keys.mpr hmem)
  refine ⟨cfg, hcfg, fun f => ?_⟩
  have hinit := initialised_of_bakeSolution hbake hprj' (mem_of_lookup hcfg)
  cases f with
  | uses => exact hinit .uses rfl
  | links => exact hinit .links rfl

/-- The connections of a configuration of a baked solution are exactly the entries
for two least closed sets of names, whatever order `pairs` has. -/
theorem getprojectsconnections_closure {env : Env} {sln : Solution} {heap h : Heap}
    {baked : BakedSolution} (hbake : bakeSolution env sln heap = .ok (h, baked))
    {prj : BakedProject} (hprj : prj ∈ baked.projects) (hcfg : (k, cfg) ∈ prj.configs) :
    ∃ U L, IsLeast {S | UsesClosed baked.projects prj.name k cfg S} U ∧
      IsLeast {S | LinksClosed baked.projects prj.name k U S} L ∧
      ∀ ord fuel, baked.projects.length < fuel →
        ∃ res, getprojectsconnections ord fuel baked.projects prj.name cfg k = .ok res ∧
          (∀ n, (res.lookup n).isSome ↔ n ∈ U ∨ n ∈ L) ∧
          ∀ n c, res.lookup n = some c → c.name = n ∧
            c.proj = (namedProjects baked.projects n).1 ∧
            usageProject baked.projects n = some c.usageProj ∧
            (c.bLinkageOnly = true ↔ n ∈ L) ∧ (c.bLinkageOnly = false ↔ n ∈ U) := by
  have hready := ready_of_bakeSolution hbake hprj (List.mem_map.mpr ⟨_, hcfg, rfl⟩)
  have hinit := initialised_of_bakeSolution hbake hprj hcfg
  refine ⟨_, _, isLeast_usesOf, isLeast_linksOf _, fun ord fuel hfuel => ?_⟩
  obtain ⟨res, hrun, hres⟩ :=
    getprojectsconnections_of_ready prj.name hready (hinit .uses rfl) ord hfuel
  have hsome : ∀ b n, HasUsage baked.projects n →
      ∃ c, connection baked.projects b n = some c := by
    intro b n hn
    obtain ⟨usePrj, huse⟩ := Option.isSome_iff_exists.mp (usageProject_isSome.mpr hn)
    exact ⟨_, by rw [connection, huse]; rfl⟩
  have hU : ∀ n ∈ usesOf baked.projects prj.name k cfg, HasUsage baked.projects n :=
    fun n hn => hasUsage_of_reach (fun _ h => (mem_usableNames.mp h).2) hn
  have hL : ∀ n ∈ linksOf baked.projects prj.name k (usesOf baked.projects prj.name k cfg),
      HasUsage baked.projects n := fun n hn =>
    hasUsage_of_reach (fun _ ⟨_, _, _, _, h⟩ => (mem_usableNames.mp h).2) hn
  refine ⟨res, hrun, fun n => ?_, fun n c hc => ?_⟩
  · rw [Option.isSome_iff_exists]
    constructor
    · rintro ⟨c, hc⟩
      exact ((hres n c).mp hc).imp And.left And.left
    · rintro (hn | hn)
      · obtain ⟨c, hc⟩ := hsome false n (hU n hn)
        exact ⟨c, (hres n c).mpr (Or.inl ⟨hn, hc⟩)⟩
      · obtain ⟨c, hc⟩ := hsome true n (hL n hn)
        exact ⟨c, (hres n c).mpr (Or.inr ⟨hn, hc⟩)⟩
  · rcases (hres n c).mp hc with ⟨hn, hc⟩ | ⟨hn, hc⟩
    · obtain ⟨usePrj, huse, rfl⟩ := Option.map_eq_some_iff.mp hc
      have hnot : n ∉ linksOf baked.projects prj.name k (usesOf baked.projects prj.name k cfg) :=
        fun h => h.not_avoid (Or.inr hn)
      exact ⟨rfl, rfl, huse, by simp [hnot], by simp [hn]⟩
    · obtain ⟨usePrj, huse, rfl⟩ := Option.map_eq_some_iff.mp hc
      have hnot : n ∉ usesOf baked.projects prj.name k cfg := fun h => hn.not_avoid (Or.inr h)
      exact ⟨rfl, rfl, huse, by simp [hn], by simp [hnot]⟩

end Closure

section Example

def usingProject (name : String) (usage : Bool) (addr : ℕ) (uses links : List String) :
    Project where
  name := name.toList
  usage := usage
  obj := Container.ofBlock (Fields.empty.set .kind staticLib)
    (((configuration addr []).set .uses ⟨uses.map String.toList, []⟩).set .links
      ⟨links.map String.toList, []⟩)

/-- Two usage projects that use each other, and a library that one of them links. -/
def cyclicSolution : Solution where
  obj := namedSolution ["Debug"] []
  projects := [usingProject "App" false 1 ["Gui"] [], usingProject "gui" true 2 ["Core"] ["Zip"],
    usingProject "Core" true 3 ["GUI", "App"] [], usingProject "zip" true 4 [] ["core", "None"]]

def bakeCyclic : Except BakeError (Heap × BakedSolution) :=
  bakeSolution .gmake cyclicSolution
    (initialHeap (cyclicSolution.obj.blocks ++ cyclicSolution.projects.flatMap (·.obj.blocks)))

theorem connections_of_cyclic : ∃ h baked prj cfg U L, bakeCyclic = .ok (h, baked) ∧
    prj ∈ baked.projects ∧ ("Debug".toList, cfg) ∈ prj.configs ∧
    IsLeast {S | UsesClosed baked.projects prj.name "Debug".toList cfg S} U ∧
    IsLeast {S | LinksClosed baked.projects prj.name "Debug".toList U S} L ∧
    ∃ res, getprojectsconnections .insertion 5 baked.projects prj.name cfg "Debug".toList =
        .ok res ∧
      ∀ n, (res.lookup n).isSome ↔ n ∈ U ∨ n ∈ L := by
  obtain ⟨h, baked, hbake⟩ : ∃ h baked, bakeCyclic = .ok (h, baked) := ⟨_, _, rfl⟩
  have hprjs : baked.projects.length = 4 ∧
      ∃ prj ∈ baked.projects, ∃ cfg, ("Debug".toList, cfg) ∈ prj.configs := by
    obtain ⟨rfl, rfl⟩ : _ ∧ _ := Prod.mk.inj (Except.ok.inj hbake)
    exact ⟨rfl, _, List.mem_cons_self .., _, List.mem_cons_of_mem _ (List.mem_cons_self ..)⟩
  obtain ⟨hlength, prj, hprj, cfg, hcfg⟩ := hprjs
  obtain ⟨U, L, hU, hL, hres⟩ := getprojectsconnections_closure hbake hprj hcfg
  obtain ⟨res, hrun, hmem, -⟩ := hres .insertion 5 (by omega)
  exact ⟨h, baked, prj, cfg, U, L, hbake, hprj, hcfg, hU, hL, res, hrun, hmem⟩

end Example

end Puremake
