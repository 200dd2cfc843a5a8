import Puremake.Action.Objects
import Puremake.Tree.Growth
import Mathlib.Logic.Function.Iterate

/-!
# The source tree of a project

`buildsourcetree` adds the virtual path of every file of a project to a tree, and enters
the settings of the file in the node. Generators for IDEs list the leaves of the tree.
A virtual path is the path of the file as the replacements change it, without the dots in
front, so two files may get the same one, and one of them is lost.
-/

namespace Puremake

namespace Project

def replaced (replacement pattern abspath : Str) : Str :=
  let fname := Path.getname abspath
  let max := abspath.length - fname.length
  let i := pattern.idxOf '*' + 1
  let leaf := if i < max then abspath.drop (i - 1) else fname
  let leaf := if Str.startswith leaf ['/'] then leaf.drop 1 else leaf
  let leaf := if '*' ∈ replacement then leaf else Path.getname leaf
  Path.join [some (replacement.filter (· ≠ '*')), some leaf]

def stripDots : Str → Str
  | '.' :: '/' :: p => stripDots p
  | '.' :: '.' :: '/' :: p => stripDots p
  | p => p

/-- `premake.project.getvpath`: the last pattern that matches at the start counts. -/
def getvpath (ord : PairsOrder) (vpaths : List (Str × Tbl)) (abspath : Str) :
    Except BakeError Str := do
  let patterns := (ord.enum vpaths).flatMap fun (replacement, patterns) =>
    patterns.arr.map fun pattern => (replacement, pattern)
  let vpath ← patterns.foldlM (fun vpath (replacement, pattern) =>
    match Lua.find (Path.wildcards pattern) abspath with
    | .error e => .error (.pattern e)
    | .ok (some (1, _)) => .ok (replaced replacement pattern abspath)
    | .ok _ => .ok vpath) abspath
  return stripDots vpath

structure SourceFile where
  fcfg : FileConfig
  vpath : Str

/-- What `premake.project.eachfile` gives for a name in the list of files. -/
def sourceFile (ord : PairsOrder) (cfg : BakedConfig) (fname : Str) :
    Except BakeError SourceFile := do
  match cfg.fileconfigs.find? fun fcfg => fcfg.name = fname with
  | none => throw .indexNil
  | some fcfg => return ⟨fcfg, ← getvpath ord ((cfg.fields .vpaths).getD []) fcfg.name⟩

/-- `premake.project.eachfile`, for the root configuration of a project. -/
def eachfile (ord : PairsOrder) (cfg : BakedConfig) : Except BakeError (List SourceFile) :=
  ((cfg.fields .files).getD Tbl.empty).arr.mapM (sourceFile ord cfg)

structure SourceData where
  isvpath : Bool
  cfg : Option FileConfig

def enter (f : Tree.Forest SourceData) (c : ℕ) (fcfg : FileConfig) : Tree.Forest SourceData :=
  f.modify c fun n => { n with data := { n.data with cfg := some fcfg } }

/-- A round of the loop in `premake.project.buildsourcetree`. -/
def addFile (f : Tree.Forest SourceData) (file : SourceFile) :
    Except BakeError (Tree.Forest SourceData) :=
  match f.add ⟨file.fcfg.name ≠ file.vpath, none⟩ 0 file.vpath with
  | none => .error .outOfFuel
  | some (f, node) => .ok (enter f node file.fcfg)

/-- `not (b < a)`, for names -/
def sortsBefore (a b : Str) : Bool := ¬ b < a

def sort (f : Tree.Forest SourceData) : Tree.Forest SourceData where
  node i := { f.node i with
    children := (f.node i).children.mergeSort fun a b =>
      sortsBefore ((f.node a).name.getD []) ((f.node b).name.getD []) }
  count := f.count

/-- `premake.project.buildsourcetree`; the root has the address 0. -/
def buildsourcetree (ord : PairsOrder) (name : Str) (cfg : BakedConfig) :
    Except BakeError (Tree.Forest SourceData) := do
  let f ← (← eachfile ord cfg).foldlM addFile (Tree.start (some name) ⟨false, none⟩)
  return sort f

def Leaf (f : Tree.Forest SourceData) (n : ℕ) : Prop :=
  n ≠ 0 ∧ f.Reachable 0 n ∧ (f.node n).children = []

/-- The leaves of a tree stand for the files of the project, one for each. -/
structure Complete (files : List SourceFile) (f : Tree.Forest SourceData) : Prop where
  leaf_of_file : ∀ file ∈ files, ∃! n, Leaf f n ∧ (f.node n).data.cfg = some file.fcfg
  file_of_leaf : ∀ n, Leaf f n → ∃ file ∈ files, (f.node n).data.cfg = some file.fcfg

/-- Virtual paths that get a leaf each: they do not start with a slash, they end in a name,
and none of them is another one or a directory of another one. -/
def Apart (vpaths : List Str) : Prop :=
  (∀ v ∈ vpaths, Path.Relative v ∧ v ≠ dot ∧ Path.getname v ≠ dotdot) ∧
    vpaths.Pairwise fun v w => v ∉ Tree.onTheWay w ∧ w ∉ Tree.onTheWay v

instance (vpaths : List Str) : Decidable (Apart vpaths) := inferInstanceAs (Decidable (_ ∧ _))

structure Filled (files : List SourceFile) (f : Tree.Forest SourceData) : Prop where
  wf : Tree.WellFormed f
  paths : ∀ j, j < f.count → j = 0 ∨
    ∃ file ∈ files, ∃ q ∈ Tree.onTheWay file.vpath, (f.node j).path = some q
  leaf : ∀ file ∈ files, ∃ n, 0 < n ∧ n < f.count ∧ (f.node n).path = some file.vpath ∧
    (f.node n).children = [] ∧ (f.node n).data.cfg = some file.fcfg ∧
    ∀ n', n' < f.count → (f.node n').path = some file.vpath → n' = n
  inner : ∀ n, 0 < n → n < f.count → (f.node n).children ≠ [] ∨
    ∃ file ∈ files, (f.node n).path = some file.vpath
  settings : ∀ n, n < f.count → ∀ fcfg, (f.node n).data.cfg = some fcfg →
    ∃ file ∈ files, file.fcfg = fcfg ∧ (f.node n).path = some file.vpath

theorem filled_start (name : Str) :
    Filled [] (Tree.start (some name) (⟨false, none⟩ : SourceData)) where
  wf := Tree.wellFormed_start _ _
  paths _ hj := .inl (Nat.lt_one_iff.mp hj)
  leaf _ h := absurd h List.not_mem_nil
  inner _ hpos hlt := absurd hpos (Nat.not_lt.mpr (Nat.lt_succ_iff.mp hlt))
  settings n _ fcfg h := by
    rw [Tree.start_node] at h
    cases h

section Settings

variable (f : Tree.Forest SourceData) (c : ℕ) (fcfg : FileConfig)

theorem enter_cfg_self : ((enter f c fcfg).node c).data.cfg = some fcfg := by
  simp [enter, Tree.Forest.modify]

theorem enter_cfg_of_ne {j : ℕ} (hj : j ≠ c) :
    ((enter f c fcfg).node j).data = (f.node j).data := by
  simp [enter, Tree.Forest.modify, Function.update_of_ne hj]

theorem enter_node (j : ℕ) : ((enter f c fcfg).node j).path = (f.node j).path ∧
    ((enter f c fcfg).node j).index = (f.node j).index ∧
    ((enter f c fcfg).node j).children = (f.node j).children := by
  by_cases hj : j = c
  · subst hj
    simp [enter, Tree.Forest.modify]
  · simp [enter, Tree.Forest.modify, Function.update_of_ne hj]

theorem enter_name (j : ℕ) : ((enter f c fcfg).node j).name = (f.node j).name ∧
    ((enter f c fcfg).node j).parent = (f.node j).parent := by
  by_cases hj : j = c
  · subst hj
    simp [enter, Tree.Forest.modify]
  · simp [enter, Tree.Forest.modify, Function.update_of_ne hj]

end Settings

/-- A file whose virtual path is apart from those of the other files gets a leaf. -/
theorem Filled.addFile {files : List SourceFile} {f : Tree.Forest SourceData}
    (hf : Filled files f) {file : SourceFile}
    (hfile : Path.Relative file.vpath ∧ file.vpath ≠ dot ∧ Path.getname file.vpath ≠ dotdot)
    (hapart : ∀ e ∈ files, e.vpath ∉ Tree.onTheWay file.vpath ∧
      file.vpath ∉ Tree.onTheWay e.vpath) :
    ∃ f', addFile f file = .ok f' ∧ Filled (files ++ [file]) f' := by
  obtain ⟨hrel, hne, hname⟩ := hfile
  obtain ⟨f', c, hadd, hgrown⟩ := hf.wf.add ⟨file.fcfg.name ≠ file.vpath, none⟩ hrel
  have hpath : (f'.node c).path = some file.vpath :=
    hgrown.path.trans (Tree.written_eq hrel hne hname)
  have hway : ∀ q ∈ Tree.onTheWay (Path.getdirectory file.vpath), q ∈ Tree.onTheWay file.vpath :=
    Tree.onTheWay_getdirectory_subset hrel
  -- no node had the virtual path of the file
  have hold : ∀ n, n < f.count → (f.node n).path ≠ some file.vpath := by
    intro n hn hpath'
    rcases hf.paths n hn with rfl | ⟨e, he, q, hq, hpath''⟩
    · rw [hf.wf.root] at hpath'
      cases hpath'
    · obtain rfl : file.vpath = q := Option.some.inj (hpath'.symm.trans hpath'')
      exact (hapart e he).2 hq
  have hfresh : f.count ≤ c :=
    Nat.not_lt.mp fun hlt => hold c hlt ((hgrown.kept c hlt).1.symm.trans hpath)
  have hpos : 0 < c := Nat.lt_of_lt_of_le hf.wf.count_pos hfresh
  have hnode := enter_node f' c file.fcfg
  refine ⟨enter f' c file.fcfg, by rw [Project.addFile, hadd], ?_, ?_, ?_, ?_, ?_⟩
  · exact hgrown.wf.congr rfl fun i => ⟨(hnode i).1, (hnode i).2.1, fun c => by
      rw [(hnode i).2.2]⟩
  · intro j hj
    rw [(hnode j).1]
    by_cases hlt : j < f.count
    · rw [(hgrown.kept j hlt).1]
      rcases hf.paths j hlt with h | ⟨e, he, q, hq⟩
      · exact .inl h
      · exact .inr ⟨e, List.mem_append_left _ he, q, hq⟩
    · refine .inr ⟨file, by simp, ?_⟩
      obtain ⟨-, rfl | ⟨-, q, hq, hpath'⟩⟩ := hgrown.fresh j (Nat.not_lt.mp hlt) hj
      · exact ⟨file.vpath, Tree.mem_onTheWay_of_written hrel (Tree.written_eq hrel hne hname),
          hpath⟩
      · exact ⟨q, hway q hq, hpath'⟩
  · intro e he
    rcases List.mem_append.mp he with he | he
    · obtain ⟨n, hn, hlt, hpath', hch, hcfg, huniq⟩ := hf.leaf e he
      obtain ⟨hkept, hdata, -⟩ := hgrown.kept n hlt
      have hnc : n ≠ c := Nat.ne_of_lt (Nat.lt_of_lt_of_le hlt hfresh)
      refine ⟨n, hn, Nat.lt_of_lt_of_le hlt hgrown.le, ?_, ?_, ?_, ?_⟩
      · rw [(hnode n).1, hkept]
        exact hpath'
      · rw [(hnode n).2.2, ← hch]
        refine (hgrown.children n hlt).resolve_right ?_
        rintro (rfl | ⟨q, hq, hpath''⟩)
        · exact absurd hn (Nat.lt_irrefl 0)
        · obtain rfl : e.vpath = q := Option.some.inj (hpath'.symm.trans hpath'')
          exact (hapart e he).1 (hway _ hq)
      · rw [enter_cfg_of_ne f' c file.fcfg hnc, hdata]
        exact hcfg
      · intro n' hn' hpath''
        rw [(hnode n').1] at hpath''
        by_cases hlt' : n' < f.count
        · exact huniq n' hlt' ((hgrown.kept n' hlt').1.symm.trans hpath'')
        · obtain ⟨q, hq, hpath₀⟩ : ∃ q ∈ Tree.onTheWay file.vpath, (f'.node n').path = some q := by
            obtain ⟨-, rfl | ⟨-, q, hq, hpath₀⟩⟩ := hgrown.fresh n' (Nat.not_lt.mp hlt') hn'
            · exact ⟨file.vpath,
                Tree.mem_onTheWay_of_written hrel (Tree.written_eq hrel hne hname), hpath⟩
            · exact ⟨q, hway q hq, hpath₀⟩
          obtain rfl : e.vpath = q := Option.some.inj (hpath''.symm.trans hpath₀)
          exact absurd hq (hapart e he).1
    · obtain rfl := List.mem_singleton.mp he
      refine ⟨c, hpos, hgrown.lt, ?_, ?_, enter_cfg_self f' c e.fcfg, ?_⟩
      · rw [(hnode c).1]
        exact hpath
      · rw [(hnode c).2.2]
        exact hgrown.last hfresh
      · intro n' hn' hpath'
        rw [(hnode n').1] at hpath'
        by_cases hlt' : n' < f.count
        · exact absurd ((hgrown.kept n' hlt').1.symm.trans hpath') (hold n' hlt')
        · obtain ⟨-, h | ⟨-, q, hq, hpath''⟩⟩ := hgrown.fresh n' (Nat.not_lt.mp hlt') hn'
          · exact h
          · obtain rfl : e.vpath = q := Option.some.inj (hpath'.symm.trans hpath'')
            exact absurd hq (Tree.not_mem_onTheWay_getdirectory hrel)
  · intro n hn hlt
    rw [(hnode n).2.2, (hnode n).1]
    by_cases hlt' : n < f.count
    · obtain ⟨hkept, -, hsub⟩ := hgrown.kept n hlt'
      rcases hf.inner n hn hlt' with hch | ⟨e, he, hpath'⟩
      · obtain ⟨x, hx⟩ := List.exists_mem_of_ne_nil _ hch
        exact .inl (List.ne_nil_of_mem (hsub hx))
      · exact .inr ⟨e, List.mem_append_left _ he, hkept.trans hpath'⟩
    · obtain ⟨-, rfl | ⟨hch, -⟩⟩ := hgrown.fresh n (Nat.not_lt.mp hlt') hlt
      · exact .inr ⟨file, by simp, hpath⟩
      · exact .inl hch
  · intro n hlt fcfg hcfg
    rw [(hnode n).1]
    by_cases hnc : n = c
    · subst hnc
      rw [enter_cfg_self] at hcfg
      exact ⟨file, by simp, Option.some.inj hcfg, hpath⟩
    · rw [enter_cfg_of_ne f' c file.fcfg hnc] at hcfg
      by_cases hlt' : n < f.count
      · obtain ⟨hkept, hdata, -⟩ := hgrown.kept n hlt'
        rw [hdata] at hcfg
        obtain ⟨e, he, hfcfg, hpath'⟩ := hf.settings n hlt' fcfg hcfg
        exact ⟨e, List.mem_append_left _ he, hfcfg, hkept.trans hpath'⟩
      · rw [(hgrown.fresh n (Nat.not_lt.mp hlt') hlt).1] at hcfg
        cases hcfg

theorem filled_of_apart {files : List SourceFile} (h : Apart (files.map SourceFile.vpath))
    {done : List SourceFile} {f : Tree.Forest SourceData} (hf : Filled done f)
    (hdone : ∀ e ∈ done, ∀ file ∈ files, e.vpath ∉ Tree.onTheWay file.vpath ∧
      file.vpath ∉ Tree.onTheWay e.vpath) :
    ∃ f', files.foldlM addFile f = .ok f' ∧ Filled (done ++ files) f' := by
  induction files generalizing done f with
  | nil => exact ⟨f, rfl, by rwa [List.append_nil]⟩
  | cons file files ih =>
      obtain ⟨hrel, hpair⟩ := h
      obtain ⟨hfile, hrest⟩ := List.pairwise_cons.mp hpair
      obtain ⟨f₁, h₁, hf₁⟩ := hf.addFile (hrel _ List.mem_cons_self)
        fun e he => hdone e he file List.mem_cons_self
      obtain ⟨f₂, h₂, hf₂⟩ := ih ⟨fun v hv => hrel v (List.mem_cons_of_mem _ hv), hrest⟩ hf₁ (by
        intro e he file' hfile'
        rcases List.mem_append.mp he with he | he
        · exact hdone e he file' (List.mem_cons_of_mem _ hfile')
        · obtain rfl := List.mem_singleton.mp he
          exact hfile _ (List.mem_map_of_mem hfile'))
      refine ⟨f₂, ?_, by rwa [List.append_assoc] at hf₂⟩
      rw [List.foldlM_cons, h₁]
      exact h₂

section Sorting

variable {f : Tree.Forest SourceData}

theorem mem_sort_children {i c : ℕ} :
    c ∈ ((sort f).node i).children ↔ c ∈ (f.node i).children :=
  (List.mergeSort_perm _ _).mem_iff

theorem sort_children_eq_nil_iff {i : ℕ} :
    ((sort f).node i).children = [] ↔ (f.node i).children = [] := by
  rw [List.eq_nil_iff_forall_not_mem, List.eq_nil_iff_forall_not_mem]
  exact forall_congr' fun c => not_congr mem_sort_children

theorem leaf_sort_iff {n : ℕ} : Leaf (sort f) n ↔ Leaf f n := by
  have hreach : (sort f).Reachable 0 n ↔ f.Reachable 0 n :=
    ⟨fun h => h.mono fun _ _ => mem_sort_children.mp,
      fun h => h.mono fun _ _ => mem_sort_children.mpr⟩
  rw [Leaf, Leaf, hreach, sort_children_eq_nil_iff]

theorem complete_sort_iff {files : List SourceFile} :
    Complete files (sort f) ↔ Complete files f := by
  have hdata : ∀ n, ((sort f).node n).data = (f.node n).data := fun _ => rfl
  constructor
  · rintro ⟨h₁, h₂⟩
    simp only [leaf_sort_iff, hdata] at h₁ h₂
    exact ⟨h₁, h₂⟩
  · rintro ⟨h₁, h₂⟩
    refine ⟨?_, ?_⟩
    · simp only [leaf_sort_iff, hdata]
      exact h₁
    · simp only [leaf_sort_iff, hdata]
      exact h₂

end Sorting

theorem Filled.complete {files : List SourceFile} {f : Tree.Forest SourceData}
    (hf : Filled files f)
    (hname : ∀ file ∈ files, ∀ file' ∈ files, file.fcfg = file'.fcfg →
      file.vpath = file'.vpath) : Complete files f where
  leaf_of_file file hfile := by
    obtain ⟨n, hn, hlt, -, hch, hcfg, huniq⟩ := hf.leaf file hfile
    refine ⟨n, ⟨⟨Nat.ne_of_gt hn, hf.wf.reachable n hlt, hch⟩, hcfg⟩, ?_⟩
    rintro n' ⟨⟨-, hreach, -⟩, hcfg'⟩
    have hlt' : n' < f.count := hf.wf.lt_count hreach
    obtain ⟨e, he, hfcfg, hpath⟩ := hf.settings n' hlt' _ hcfg'
    exact huniq n' hlt' (hname e he file hfile hfcfg ▸ hpath)
  file_of_leaf n h := by
    obtain ⟨hn, hreach, hch⟩ := h
    have hlt : n < f.count := hf.wf.lt_count hreach
    obtain ⟨file, hfile, hpath⟩ :=
      (hf.inner n (Nat.pos_of_ne_zero hn) hlt).resolve_left fun h => h hch
    obtain ⟨n', -, -, -, -, hcfg, huniq⟩ := hf.leaf file hfile
    exact ⟨file, hfile, huniq n hlt hpath ▸ hcfg⟩

section Eachfile

variable {ord : PairsOrder} {cfg : BakedConfig} {files : List SourceFile}

theorem vpath_eq_of_eachfile (h : eachfile ord cfg = .ok files) :
    ∀ file ∈ files, ∀ file' ∈ files, file.fcfg = file'.fcfg → file.vpath = file'.vpath := by
  have hvpath : ∀ file ∈ files,
      getvpath ord ((cfg.fields .vpaths).getD []) file.fcfg.name = .ok file.vpath := by
    intro file hfile
    obtain ⟨fname, -, hfname⟩ := FoldRun.exists_of_mem_mapM h hfile
    rw [sourceFile] at hfname
    split at hfname
    · cases hfname
    · obtain ⟨v, hv, hfile⟩ := FoldRun.bind_eq_ok.mp hfname
      obtain rfl := Except.ok.inj hfile
      exact hv
  intro file hfile file' hfile' heq
  have h₁ := hvpath file hfile
  rw [heq, hvpath file' hfile'] at h₁
  exact (Except.ok.inj h₁).symm

/-- The files of a list without duplicates have different settings. -/
theorem settings_of_eachfile (h : eachfile ord cfg = .ok files)
    (hnodup : ((cfg.fields .files).getD Tbl.empty).arr.Nodup) :
    files.Pairwise fun e e' => e.fcfg ≠ e'.fcfg := by
  have hall := FoldRun.mapM_eq_ok.mp h
  have hnames : files.map (fun file => file.fcfg.name) =
      ((cfg.fields .files).getD Tbl.empty).arr := by
    clear h hnodup
    generalize ((cfg.fields .files).getD Tbl.empty).arr = fnames at hall
    induction hall with
    | nil => rfl
    | cons hfile _ ih =>
        rw [List.map_cons, ih]
        rw [sourceFile] at hfile
        split at hfile
        · cases hfile
        · rename_i hfind
          obtain ⟨v, -, hfile⟩ := FoldRun.bind_eq_ok.mp hfile
          obtain rfl := Except.ok.inj hfile
          exact congrArg (· :: _) (by simpa using List.find?_some hfind)
  rw [← hnames, List.nodup_iff_pairwise_ne, List.pairwise_map] at hnodup
  exact hnodup.imp fun hne heq => hne (congrArg FileConfig.name heq)

end Eachfile

/-- A path that is put together from its directory and its name in the plain way, and so are the
directories on its way. -/
def Plain (p : Str) : Prop :=
  ∀ q ∈ Tree.onTheWay p, Path.getname q ≠ dotdot ∧
    q = if Path.getdirectory q = dot then Path.getname q
      else Path.getdirectory q ++ '/' :: Path.getname q

instance (p : Str) : Decidable (Plain p) := inferInstanceAs (Decidable (∀ q ∈ _, _))

theorem Plain.of_mem {p q : Str} (h : Plain p) (hp : Path.Relative p)
    (hq : q ∈ Tree.onTheWay p) : Plain q :=
  fun r hr => h r ((Tree.of_mem_onTheWay hp hq).2.2 r hr)

theorem Plain.getdirectory {p : Str} (h : Plain p) (hp : Path.Relative p) :
    Plain (Path.getdirectory p) :=
  fun q hq => h q (Tree.onTheWay_getdirectory_subset hp q hq)

theorem Plain.written {p : Str} (h : Plain p) (hp : Path.Relative p) (hne : p ≠ dot) :
    Tree.written p = some p := by
  exact Tree.written_eq hp hne (h p (Tree.mem_onTheWay_self hp hne)).1

theorem Plain.eq_of_parts {p q : Str} (hp : Plain p) (hq : Plain q) (hp' : Path.Relative p)
    (hq' : Path.Relative q) (hpne : p ≠ dot) (hqne : q ≠ dot)
    (hname : Path.getname p = Path.getname q)
    (hdir : Tree.written (Path.getdirectory p) = Tree.written (Path.getdirectory q)) : p = q := by
  have hdirectory : Path.getdirectory p = Path.getdirectory q := by
    have hpdir := (Path.getdirectory_of_relative hp').1
    have hqdir := (Path.getdirectory_of_relative hq').1
    have hdot : Tree.written dot = none := by simp [Tree.written]
    by_cases h : Path.getdirectory p = dot
    · by_cases h' : Path.getdirectory q = dot
      · rw [h, h']
      · rw [h, hdot, (hq.getdirectory hq').written hqdir h'] at hdir
        cases hdir
    · rw [(hp.getdirectory hp').written hpdir h] at hdir
      by_cases h' : Path.getdirectory q = dot
      · rw [h', hdot] at hdir
        cases hdir
      · rw [(hq.getdirectory hq').written hqdir h'] at hdir
        exact Option.some.inj hdir
  have hpon := (hp p (Tree.mem_onTheWay_self hp' hpne)).2
  have hqon := (hq q (Tree.mem_onTheWay_self hq' hqne)).2
  rw [hpon, hqon, hdirectory, hname]

/-- In a tree of plain paths no addition of a plain path goes a wrong way. -/
theorem regular_of_plain {α : Type*} {f : Tree.Forest α} (hf : Tree.Invariant f)
    (hplain : ∀ n, n < f.count → ∀ q, (f.node n).path = some q → Plain q) {p : Str}
    (hp : Path.Relative p) (h : Plain p) : Tree.Op.Regular f 0 (.add p) := by
  refine ⟨hp, fun q hq hname i hi c hkey => ?_⟩
  obtain ⟨hmem, hcname⟩ := hf.keyed i _ c hkey
  obtain ⟨-, hclt, hparent, q', hq', hloc, hpath⟩ := hf.listed i c hmem
  have hq'plain : Plain q' := hplain c hclt q' hpath
  obtain ⟨hqrel, hqne, -⟩ := Tree.of_mem_onTheWay hp hq
  have hq'ne : q' ≠ dot := by
    rintro rfl
    obtain rfl : 0 = c := by simpa using hloc
    rw [hf.root] at hpath
    cases hpath
  have hq'name : Path.getname q' ≠ dotdot :=
    (hq'plain q' (Tree.mem_onTheWay_self hq' hq'ne)).1
  obtain ⟨i', hi', hkey', -⟩ := (Tree.locate_eq_some_iff hq' hq'ne hq'name).mp hloc
  obtain ⟨hmem', hcname'⟩ := hf.keyed i' _ c hkey'
  obtain rfl : i = i' := Option.some.inj (hparent.symm.trans (hf.listed i' c hmem').2.2.1)
  rw [hpath]
  refine congrArg some (hq'plain.eq_of_parts (h.of_mem hp hq) hq' hqrel hq'ne hqne ?_ ?_)
  · exact Option.some.inj (hcname'.symm.trans hcname)
  · rw [← Tree.path_of_locate hf.root (Path.getdirectory_of_relative hq').1 hi',
      ← Tree.path_of_locate hf.root (Path.getdirectory_of_relative hqrel).1 hi]

section Shape

variable {α : Type*} {f f' : Tree.Forest α}

theorem locate_congr (h : ∀ i, (f'.node i).path = (f.node i).path ∧
    (f'.node i).index = (f.node i).index) (tr : ℕ) (p : Str) :
    f'.locate tr p = f.locate tr p := by
  have hfollow : f'.follow = f.follow := by
    funext i p
    simp only [Tree.Forest.follow, h]
  rw [Tree.Forest.locate, Tree.Forest.locate, hfollow]

theorem invariant_congr (hf : Tree.Invariant f) (hcount : f'.count = f.count)
    (h : ∀ i, (f'.node i).path = (f.node i).path ∧ (f'.node i).index = (f.node i).index ∧
      (f'.node i).children = (f.node i).children ∧ (f'.node i).name = (f.node i).name ∧
      (f'.node i).parent = (f.node i).parent) : Tree.Invariant f' := by
  have hloc := locate_congr fun i => ⟨(h i).1, (h i).2.1⟩
  refine ⟨(h 0).1.trans hf.root, hcount ▸ hf.count_pos, ?_, ?_, ?_⟩
  · intro i c hc
    rw [(h i).2.2.1] at hc
    obtain ⟨hi, hc, hparent, q, hq, hlocate, hpath⟩ := hf.listed i c hc
    exact ⟨hcount ▸ hi, hcount ▸ hc, (h c).2.2.2.2.trans hparent, q, hq,
      (hloc 0 q).trans hlocate, (h c).1.trans hpath⟩
  · intro i k c hkey
    rw [(h i).2.1] at hkey
    obtain ⟨hmem, hname⟩ := hf.keyed i k c hkey
    exact ⟨(h i).2.2.1 ▸ hmem, (h c).2.2.2.1.trans hname⟩
  · intro c i hparent
    rw [(h c).2.2.2.2] at hparent
    exact (h i).2.2.1 ▸ hf.parent c i hparent

theorem exists_children_of_locate (hf : Tree.Invariant f) {p : Str} (hp : Path.Relative p)
    (hplain : Plain p) {c : ℕ} (hc : f.locate 0 p = some c) :
    ∀ q ∈ Tree.onTheWay (Path.getdirectory p), ∃ n, f.locate 0 q = some n ∧
      (f.node n).children ≠ [] := by
  induction p, hp using Path.relative_induction generalizing c with
  | dot =>
      intro q hq
      rw [show Path.getdirectory dot = dot from rfl, Tree.onTheWay_dot] at hq
      cases hq
  | step p hp hne ih =>
      intro q hq
      have hrel := (Path.getdirectory_of_relative hp).1
      obtain ⟨i, hi, hkey, -⟩ := (Tree.locate_eq_some_iff hp hne
        (hplain p (Tree.mem_onTheWay_self hp hne)).1).mp hc
      by_cases hdir : Path.getdirectory p = dot
      · rw [hdir, Tree.onTheWay_dot] at hq
        cases hq
      · rw [Tree.onTheWay_of_ne_dot hrel hdir] at hq
        rcases List.mem_cons.mp hq with rfl | hq
        · exact ⟨i, hi, List.ne_nil_of_mem (hf.keyed i _ c hkey).1⟩
        · exact ih (hplain.getdirectory hp) hi q hq

end Shape

/-- A tree of plain paths to which some files have been added: every node with
settings is the one that is found for the virtual path of a file with these. -/
structure Traced (files : List SourceFile) (f : Tree.Forest SourceData) : Prop where
  wf : Tree.WellFormed f
  inv : Tree.Invariant f
  plain : ∀ n, n < f.count → ∀ q, (f.node n).path = some q → Plain q
  found : ∀ file ∈ files, Path.Relative file.vpath ∧ ∃ n, f.locate 0 file.vpath = some n
  settings : ∀ n, n < f.count → ∀ fcfg, (f.node n).data.cfg = some fcfg →
    ∃ file ∈ files, file.fcfg = fcfg ∧ f.locate 0 file.vpath = some n

theorem traced_start (name : Str) :
    Traced [] (Tree.start (some name) (⟨false, none⟩ : SourceData)) where
  wf := Tree.wellFormed_start _ _
  inv := Tree.invariant_start _ _
  plain n _ q h := by
    rw [Tree.start_node] at h
    cases h
  found _ h := absurd h List.not_mem_nil
  settings n _ fcfg h := by
    rw [Tree.start_node] at h
    cases h

theorem Traced.addFile {files : List SourceFile} {f f' : Tree.Forest SourceData}
    (hf : Traced files f) {file : SourceFile} (hplain : Plain file.vpath)
    (h : addFile f file = .ok f') : Traced (files ++ [file]) f' := by
  rw [Project.addFile] at h
  split at h
  · cases h
  · rename_i f₁ c hadd
    obtain rfl : enter f₁ c file.fcfg = f' := Except.ok.inj h
    have hrel : Path.Relative file.vpath := Path.relative_of_along _ _ hadd
    have hnode := enter_node f₁ c file.fcfg
    obtain ⟨f₂, c₂, hadd₂, hinv, hkeeps, hloc, -⟩ :=
      hf.inv.add ⟨file.fcfg.name ≠ file.vpath, none⟩ (regular_of_plain hf.inv hf.plain hrel hplain)
    obtain ⟨rfl, rfl⟩ : f₁ = f₂ ∧ c = c₂ := by
      rw [hadd] at hadd₂
      simpa using hadd₂
    obtain ⟨f₂, c₂, hadd₂, hgrown⟩ := hf.wf.add ⟨file.fcfg.name ≠ file.vpath, none⟩ hrel
    obtain ⟨rfl, rfl⟩ : f₁ = f₂ ∧ c = c₂ := by
      rw [hadd] at hadd₂
      simpa using hadd₂
    have hlocate : ∀ p, (enter f₁ c file.fcfg).locate 0 p = f₁.locate 0 p :=
      locate_congr (fun i => ⟨(hnode i).1, (hnode i).2.1⟩) 0
    refine ⟨?_, ?_, ?_, ?_, ?_⟩
    · exact hgrown.wf.congr rfl fun i => ⟨(hnode i).1, (hnode i).2.1, fun c => by
        rw [(hnode i).2.2]⟩
    · exact invariant_congr hinv rfl fun i =>
        ⟨(hnode i).1, (hnode i).2.1, (hnode i).2.2, enter_name f₁ c file.fcfg i⟩
    · intro n hn q hq
      rw [(hnode n).1] at hq
      by_cases hlt : n < f.count
      · exact hf.plain n hlt q ((hgrown.kept n hlt).1.symm.trans hq)
      · refine hplain.of_mem hrel ?_
        obtain ⟨-, rfl | ⟨-, r, hr, hpath⟩⟩ := hgrown.fresh n (Nat.not_lt.mp hlt) hn
        · exact Tree.mem_onTheWay_of_written hrel (hgrown.path.symm.trans hq)
        · obtain rfl : q = r := Option.some.inj (hq.symm.trans hpath)
          exact Tree.onTheWay_getdirectory_subset hrel q hr
    · intro e he
      rcases List.mem_append.mp he with he | he
      · obtain ⟨her, n, hn⟩ := hf.found e he
        exact ⟨her, n, (hlocate _).trans (hkeeps _ her n hn)⟩
      · obtain rfl := List.mem_singleton.mp he
        exact ⟨hrel, c, (hlocate _).trans hloc⟩
    · intro n hn fcfg hcfg
      by_cases hnc : n = c
      · subst hnc
        rw [enter_cfg_self] at hcfg
        exact ⟨file, by simp, Option.some.inj hcfg, (hlocate _).trans hloc⟩
      · rw [enter_cfg_of_ne f₁ c file.fcfg hnc] at hcfg
        by_cases hlt : n < f.count
        · rw [(hgrown.kept n hlt).2.1] at hcfg
          obtain ⟨e, he, hfcfg, hn'⟩ := hf.settings n hlt fcfg hcfg
          exact ⟨e, List.mem_append_left _ he, hfcfg,
            (hlocate _).trans (hkeeps _ (hf.found e he).1 n hn')⟩
        · rw [(hgrown.fresh n (Nat.not_lt.mp hlt) hn).1] at hcfg
          cases hcfg

theorem traced_of_foldlM {files : List SourceFile} (hplain : ∀ file ∈ files, Plain file.vpath)
    {f f' : Tree.Forest SourceData} {done : List SourceFile} (hf : Traced done f)
    (h : files.foldlM addFile f = .ok f') : Traced (done ++ files) f' := by
  induction files generalizing done f with
  | nil =>
      obtain rfl := FoldRun.foldlM_nil_eq_ok.mp h
      rwa [List.append_nil]
  | cons file files ih =>
      obtain ⟨f₁, h₁, h⟩ := FoldRun.foldlM_cons_eq_ok.mp h
      have hf₁ := hf.addFile (hplain file List.mem_cons_self) h₁
      have hf' := ih (fun e he => hplain e (List.mem_cons_of_mem _ he)) hf₁ h
      rwa [List.append_assoc] at hf'

/-- When the leaves of a tree of plain paths stand for the files, the paths are apart. -/
theorem Traced.apart {files : List SourceFile} {f : Tree.Forest SourceData} (hf : Traced files f)
    (hplain : ∀ file ∈ files, Plain file.vpath) (hcomplete : Complete files f)
    (hnodup : files.Pairwise fun e e' => e.fcfg ≠ e'.fcfg)
    (hname : ∀ file ∈ files, ∀ file' ∈ files, file.fcfg = file'.fcfg →
      file.vpath = file'.vpath) : Apart (files.map SourceFile.vpath) := by
  have hleaf : ∀ e ∈ files, ∃ n, Leaf f n ∧ (f.node n).data.cfg = some e.fcfg ∧
      f.locate 0 e.vpath = some n := by
    intro e he
    obtain ⟨n, ⟨hn, hcfg⟩, -⟩ := hcomplete.leaf_of_file e he
    obtain ⟨e', he', hfcfg, hloc⟩ := hf.settings n (hf.wf.lt_count hn.2.1) _ hcfg
    exact ⟨n, hn, hcfg, hname e' he' e he hfcfg ▸ hloc⟩
  have hne : ∀ e ∈ files, e.vpath ≠ dot := by
    intro e he hdot
    obtain ⟨n, hn, -, hloc⟩ := hleaf e he
    rw [hdot, Tree.locate_dot] at hloc
    exact hn.1 (Option.some.inj hloc).symm
  have hapart : ∀ e ∈ files, ∀ e' ∈ files, e.fcfg ≠ e'.fcfg →
      e.vpath ∉ Tree.onTheWay e'.vpath := by
    intro e he e' he' hfcfg hon
    obtain ⟨n, hn, hcfg, hloc⟩ := hleaf e he
    obtain ⟨n', hn', hcfg', hloc'⟩ := hleaf e' he'
    have hrel := (hf.found e' he').1
    rw [Tree.onTheWay_of_ne_dot hrel (hne e' he')] at hon
    rcases List.mem_cons.mp hon with heq | hon
    · -- both files are entered in one node
      rw [heq, hloc'] at hloc
      obtain rfl : n' = n := Option.some.inj hloc
      exact hfcfg (Option.some.inj (hcfg.symm.trans hcfg'))
    · -- the node of one file is a directory of the other
      obtain ⟨m, hm, hch⟩ :=
        exists_children_of_locate hf.inv hrel (hplain e' he') hloc' _ hon
      rw [hloc] at hm
      obtain rfl : n = m := Option.some.inj hm
      exact hch hn.2.2
  refine ⟨?_, List.pairwise_map.mpr (hnodup.imp_of_mem fun he he' hfcfg =>
    ⟨hapart _ he _ he' hfcfg, hapart _ he' _ he (Ne.symm hfcfg)⟩)⟩
  intro v hv
  obtain ⟨e, he, rfl⟩ := List.mem_map.mp hv
  have hrel := (hf.found e he).1
  exact ⟨hrel, hne e he, (hplain e he e.vpath (Tree.mem_onTheWay_self hrel (hne e he))).1⟩

section Project

variable (ord : PairsOrder) (name : Str) (cfg : BakedConfig)

/-- The source tree is built, and no file is lost. -/
def LosesNoFile : Prop :=
  ∃ files tree, eachfile ord cfg = .ok files ∧ buildsourcetree ord name cfg = .ok tree ∧
    Complete files tree

/-- All the files have virtual paths, and these are apart. -/
def FilesApart : Prop :=
  ∃ files, eachfile ord cfg = .ok files ∧ Apart (files.map SourceFile.vpath)

def FilesPlain : Prop :=
  ∀ files, eachfile ord cfg = .ok files → ∀ file ∈ files, Plain file.vpath

variable {ord name cfg}

theorem buildsourcetree_eq_ok {tree : Tree.Forest SourceData} :
    buildsourcetree ord name cfg = .ok tree ↔ ∃ files f, eachfile ord cfg = .ok files ∧
      files.foldlM addFile (Tree.start (some name) ⟨false, none⟩) = .ok f ∧ sort f = tree := by
  rw [buildsourcetree, FoldRun.bind_eq_ok]
  refine exists_congr fun files => ?_
  rw [FoldRun.bind_eq_ok, ← exists_and_left]
  refine exists_congr fun f => and_congr_right fun _ => and_congr_right fun _ => ?_
  exact ⟨fun h => Except.ok.inj h, fun h => congrArg Except.ok h⟩

theorem losesNoFile_of_apart (h : FilesApart ord cfg) : LosesNoFile ord name cfg := by
  obtain ⟨files, hfiles, hapart⟩ := h
  obtain ⟨f, hf, hfilled⟩ := filled_of_apart hapart (filled_start name)
    fun e he => absurd he List.not_mem_nil
  exact ⟨files, sort f, hfiles, buildsourcetree_eq_ok.mpr ⟨files, f, hfiles, hf, rfl⟩,
    complete_sort_iff.mpr (hfilled.complete (vpath_eq_of_eachfile hfiles))⟩

theorem apart_of_losesNoFile (hnodup : ((cfg.fields .files).getD Tbl.empty).arr.Nodup)
    (hplain : FilesPlain ord cfg) (h : LosesNoFile ord name cfg) : FilesApart ord cfg := by
  obtain ⟨files, tree, hfiles, htree, hcomplete⟩ := h
  obtain ⟨files', f, hfiles', hf, rfl⟩ := buildsourcetree_eq_ok.mp htree
  obtain rfl : files = files' := Except.ok.inj (hfiles.symm.trans hfiles')
  exact ⟨files, hfiles, (traced_of_foldlM (hplain files hfiles) (traced_start name) hf).apart
    (hplain files hfiles) (complete_sort_iff.mp hcomplete) (settings_of_eachfile hfiles hnodup)
    (vpath_eq_of_eachfile hfiles)⟩

/-- For every project with a list of files without duplicates: no file is lost when the virtual
paths are apart, and where they are plain in no other case. -/
theorem losesNoFile_iff (ord : PairsOrder) (name : Str) (cfg : BakedConfig)
    (hnodup : ((cfg.fields .files).getD Tbl.empty).arr.Nodup) :
    (FilesApart ord cfg → LosesNoFile ord name cfg) ∧
      (FilesPlain ord cfg → LosesNoFile ord name cfg → FilesApart ord cfg) :=
  ⟨losesNoFile_of_apart, apart_of_losesNoFile hnodup⟩

def twoFiles (fname fname' : Str) : BakedConfig where
  name := none
  platform := native
  terms := none
  fields := Fields.empty.set .files ⟨[fname, fname'], [fname, fname']⟩
  shortname := none
  longname := none
  system := "linux".toList
  fileconfigs := [⟨fname, Obj.empty⟩, ⟨fname', Obj.empty⟩]

theorem losesNoFile_twoFiles :
    LosesNoFile .insertion "A".toList (twoFiles "src/a.c".toList "../b.c".toList) :=
  (losesNoFile_iff .insertion "A".toList (twoFiles "src/a.c".toList "../b.c".toList)
    (by decide)).1 ⟨_, rfl, by decide⟩

/-- A file of the directory above and one of the same name in the directory of the
project: the leaf for the first one is taken by the second. -/
theorem not_losesNoFile_parent :
    ((((twoFiles "../a.c".toList "a.c".toList).fields .files).getD Tbl.empty).arr.Nodup) ∧
      ¬ LosesNoFile .insertion "A".toList (twoFiles "../a.c".toList "a.c".toList) := by
  have hnodup : ((((twoFiles "../a.c".toList "a.c".toList).fields .files).getD
      Tbl.empty).arr.Nodup) := by decide
  have hfiles : eachfile .insertion (twoFiles "../a.c".toList "a.c".toList) = .ok
      [⟨⟨"../a.c".toList, Obj.empty⟩, "a.c".toList⟩,
        ⟨⟨"a.c".toList, Obj.empty⟩, "a.c".toList⟩] := rfl
  have hplain : FilesPlain .insertion (twoFiles "../a.c".toList "a.c".toList) := by
    intro files h file hfile
    obtain rfl := Except.ok.inj (hfiles.symm.trans h)
    rcases List.mem_cons.mp hfile with rfl | hfile
    · decide
    · obtain rfl := List.mem_singleton.mp hfile
      decide
  refine ⟨hnodup, fun h => ?_⟩
  obtain ⟨files, hfiles', hapart⟩ := apart_of_losesNoFile hnodup hplain h
  obtain rfl := Except.ok.inj (hfiles.symm.trans hfiles')
  exact absurd hapart (by decide)

end Project

end Project

namespace Tree

section Ends

variable {α : Type*}

/-- The recursion of `tree.add` comes to an end: the directories of the path reach `.` after
finitely many steps, and with enough fuel there is a result. -/
def Ends (d : α) (tr : ℕ) (f : Forest α) (p : Str) : Prop :=
  (∃ n, Path.getdirectory^[n] p = dot) ∧
    ∃ fuel, (Path.descend (f, tr) (Forest.extend d) fuel p).isSome

theorem not_relative_iterate {p : Str} (hp : ¬ Path.Relative p) (n : ℕ) :
    ¬ Path.Relative (Path.getdirectory^[n] p) := by
  induction n with
  | zero => exact hp
  | succ n ih =>
      rw [Function.iterate_succ_apply']
      exact Path.getdirectory_of_not_relative ih

theorem exists_iterate_eq_dot {p : Str} (hp : Path.Relative p) :
    ∃ n, Path.getdirectory^[n] p = dot := by
  induction p, hp using Path.relative_induction with
  | dot => exact ⟨0, rfl⟩
  | step p hp _ ih =>
      obtain ⟨n, hn⟩ := ih
      exact ⟨n + 1, hn⟩

/-- The recursion comes to an end exactly when the path does not start with a slash. -/
theorem ends_iff (d : α) (tr : ℕ) (f : Forest α) (p : Str) : Ends d tr f p ↔ Path.Relative p := by
  constructor
  · rintro ⟨⟨n, hn⟩, -⟩
    by_contra hp
    apply not_relative_iterate hp n
    rw [hn]
    exact Path.relative_dot
  · intro hp
    exact ⟨exists_iterate_eq_dot hp, _,
      Path.descend_isSome (f, tr) (Forest.extend d) hp (Nat.le_refl _)⟩

/-- A file that shares only the root with its project keeps its absolute path, also as a
virtual path, and is added to no tree. -/
theorem not_ends_absolute :
    Path.getrelative "/home".toList "/home/app".toList "/usr/x.c".toList = "/usr/x.c".toList ∧
      Project.getvpath .insertion [] "/usr/x.c".toList = .ok "/usr/x.c".toList ∧
      ¬ Ends () 0 (start none ()) "/usr/x.c".toList := by
  refine ⟨by decide +kernel, rfl, ?_⟩
  rintro ⟨⟨n, hn⟩, -⟩
  apply not_relative_iterate (p := "/usr/x.c".toList) (by decide) n
  rw [hn]
  exact Path.relative_dot

end Ends

end Tree

end Puremake
