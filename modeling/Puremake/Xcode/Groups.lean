import Puremake.Tree.Built

/-!
# Groups of localized files

The generator for Xcode works on the nodes of the source tree, with fields of its own. The files
`X.lproj/f` of a language `X` are shown as `f/X`: every file of the directory is moved
below a group with the name of the file and gets the name of the language. The
group is looked up by its name among the nodes beside the directory, and made when there
is none.
-/

namespace Puremake

namespace Xcode

open Puremake.Tree

structure NodeData extends Project.SourceData where
  kind : Option Str
  id : Option Str
  buildid : Option Str
  resstageid : Option Str
  sourcesid : Option Str
  fxstageid : Option Str

def NodeData.empty : NodeData := ⟨⟨false, none⟩, none, none, none, none, none, none⟩

abbrev PrjTree := Tree.Forest NodeData

/-- The nodes of the source tree; the generator has not given them any field yet. -/
def ofSource (f : Tree.Forest Project.SourceData) : PrjTree where
  node i :=
    let n := f.node i
    ⟨n.name, n.path, n.children, n.index, n.parent, { NodeData.empty with toSourceData := n.data }⟩
  count := f.count

def lproj : Str := ".lproj".toList

def vgroup : Str := "vgroup".toList

/-- The group for a file of a language, below `node.parent`. -/
def getgroup (f : PrjTree) (parent : ℕ) (name : Option Str) : PrjTree × ℕ :=
  match name.bind fun name => (f.node parent).index.lookup name with
  | some grpnode => (f, grpnode)
  | none =>
    (((f.new name .empty).insert parent f.count).modify f.count fun n =>
      { n with data := { n.data with kind := some vgroup } }, f.count)

/-- The body of the loop over `node.children`: the file becomes a language of its group. -/
def movefile (lang : Str) (parent : ℕ) (f : PrjTree) (filenode : ℕ) : PrjTree :=
  let (f, grpnode) := getgroup f parent (f.node filenode).name
  (f.modify filenode fun n => { n with name := some (Path.getbasename lang) }).insert grpnode
    filenode

/-- The loop over `node.children`, from a place on. -/
def movefiles (lang : Str) (node : ℕ) : ℕ → ℕ → PrjTree → Option PrjTree
  | 0, _, _ => none
  | fuel + 1, i, f =>
    match (f.node node).children[i]? with
    | none => some f
    | some filenode => do
      let parent ← (f.node node).parent
      movefiles lang node fuel (i + 1) (movefile lang parent f filenode)

section Move

variable {f f' f'' : PrjTree} {p c : ℕ} {gs : Grove ℕ} {front : List ℕ} {k lang : Str}
  {K : Str → Prop} {moved touched moved' touched' : ℕ → Prop}

/-- What a part of the pass may do with the nodes that have been made: only the nodes that are
`moved` get another name or another parent, and those that are not `touched` stay as they are. -/
structure Changes (f f' : PrjTree) (moved touched : ℕ → Prop) : Prop where
  le : f.count ≤ f'.count
  data : ∀ n, n < f.count → (f'.node n).data = (f.node n).data
  labels : ∀ n, n < f.count → ¬ moved n →
    (f'.node n).name = (f.node n).name ∧ (f'.node n).parent = (f.node n).parent
  frame : ∀ n, n < f.count → ¬ touched n → f'.node n = f.node n

theorem Changes.refl (f : PrjTree) (moved touched : ℕ → Prop) : Changes f f moved touched :=
  ⟨Nat.le_refl _, fun _ _ => rfl, fun _ _ _ => ⟨rfl, rfl⟩, fun _ _ _ => rfl⟩

theorem Changes.trans (h : Changes f f' moved touched) (h' : Changes f' f'' moved' touched') :
    Changes f f'' (fun n => moved n ∨ moved' n) (fun n => touched n ∨ touched' n) where
  le := h.le.trans h'.le
  data n hn := (h'.data n (hn.trans_le h.le)).trans (h.data n hn)
  labels n hn hm := by
    rw [not_or] at hm
    obtain ⟨hname, hparent⟩ := h.labels n hn hm.1
    obtain ⟨hname', hparent'⟩ := h'.labels n (hn.trans_le h.le) hm.2
    exact ⟨hname'.trans hname, hparent'.trans hparent⟩
  frame n hn ht := by
    rw [not_or] at ht
    exact (h'.frame n (hn.trans_le h.le) ht.2).trans (h.frame n hn ht.1)

theorem Changes.mono (h : Changes f f' moved touched)
    (hmoved : ∀ n, n < f.count → moved n → moved' n)
    (htouched : ∀ n, n < f.count → touched n → touched' n) : Changes f f' moved' touched' :=
  ⟨h.le, h.data, fun n hn hm => h.labels n hn fun h => hm (hmoved n hn h),
    fun n hn ht => h.frame n hn fun h => ht (htouched n hn h)⟩

/-- A node with a name that is no directory of a language. -/
def Quiet (f : PrjTree) (n : ℕ) : Prop :=
  ∃ name, (f.node n).name = some name ∧
    ((f.node n).children = [] ∨ Path.getextension name ≠ lproj)

/-- The groups that have been made below `p`: they are its last children. -/
structure Groups (K : Str → Prop) (f : PrjTree) (p : ℕ) (front : List ℕ) (gs : Grove ℕ) :
    Prop where
  children : (f.node p).children = front ++ gs.roots
  holds : Holds f p gs
  nodup : (p :: gs.nodes).Nodup
  lt : ∀ n ∈ p :: gs.nodes, n < f.count
  quiet : ∀ n ∈ gs.nodes, Quiet f n
  indexed : ∀ k, K k → ∀ g, (f.node p).index.lookup k = some g → g ∈ gs.roots ∧
    (f.node g).children ≠ [] ∧ (f.node g).name = some k ∧ (f.node g).data.kind = some vgroup

/-- A group for a file with the name `k`, before the file is moved. -/
structure Opened (K : Str → Prop) (f f' : PrjTree) (p : ℕ) (front : List ℕ) (gs gs' : Grove ℕ)
    (g : ℕ) (k : Str) : Prop where
  children : (f'.node p).children = front ++ gs'.roots
  holds : Holds f' p gs'
  nodup : (p :: gs'.nodes).Nodup
  lt : ∀ n ∈ p :: gs'.nodes, n < f'.count
  quiet : ∀ n ∈ gs'.nodes, Quiet f' n
  indexed : ∀ k, K k → ∀ g', (f'.node p).index.lookup k = some g' → g' ∈ gs'.roots ∧
    ((f'.node g').children ≠ [] ∨ g' = g) ∧ (f'.node g').name = some k ∧
    (f'.node g').data.kind = some vgroup
  mem : g ∈ gs'.roots
  name : (f'.node g).name = some k
  kind : (f'.node g).data.kind = some vgroup
  leaves : ∀ c, (gs'.graft g (.cons c .nil .nil)).leaves.Perm (gs.leaves ++ [c])
  subset : gs.nodes ⊆ gs'.nodes
  new : ∀ n ∈ gs'.nodes, n ∈ gs.nodes ∨ f.count ≤ n
  changes : Changes f f' (fun _ => False) (· = p)

theorem Groups.getgroup (h : Groups K f p front gs) (hk : K k)
    (hext : Path.getextension k ≠ lproj) :
    ∃ gs', Opened K f (Xcode.getgroup f p (some k)).1 p front gs gs'
      (Xcode.getgroup f p (some k)).2 k := by
  cases hlookup : (f.node p).index.lookup k with
  | some g =>
      have hget : Xcode.getgroup f p (some k) = (f, g) := by
        simp [Xcode.getgroup, hlookup]
      obtain ⟨hmem, hchildren, hname, hkind⟩ := h.indexed k hk g hlookup
      have hleaf : g ∉ gs.leaves := fun hg => hchildren (h.holds.mem_leaves_iff.mp hg).2
      rw [hget]
      exact ⟨gs, h.children, h.holds, h.nodup, h.lt, h.quiet, fun k hk g hg =>
        (h.indexed k hk g hg).imp_right fun h => h.imp_left .inl, hmem, hname, hkind,
        fun c => Grove.leaves_graft (List.nodup_cons.mp h.nodup).2
          (Grove.roots_subset_nodes gs hmem) hleaf, List.Subset.refl _, fun _ => .inl, .refl _ _ _⟩
  | none =>
      have hp : p < f.count := h.lt p List.mem_cons_self
      have hgs : ∀ n ∈ gs.nodes, n ≠ p ∧ n ≠ f.count := fun n hn =>
        ⟨fun hnp => (List.nodup_cons.mp h.nodup).1 (hnp ▸ hn),
          (h.lt n (List.mem_cons_of_mem _ hn)).ne⟩
      obtain ⟨f', hget, hcount, hnew, hparent, hframe⟩ : ∃ f', Xcode.getgroup f p (some k) =
          (f', f.count) ∧ f'.count = f.count + 1 ∧
          f'.node f.count =
            ⟨some k, none, [], [], some p, { NodeData.empty with kind := some vgroup }⟩ ∧
          f'.node p = { f.node p with
            children := (f.node p).children ++ [f.count]
            index := assign k f.count (f.node p).index } ∧
          ∀ n, n ≠ p → n ≠ f.count → f'.node n = f.node n := by
        refine ⟨_, by simp only [Xcode.getgroup, Option.bind_some, hlookup]; rfl, rfl, ?_, ?_, ?_⟩
        · simp [Forest.insert, Forest.new, Forest.modify, hp.ne']
        · simp [Forest.insert, Forest.new, Forest.modify, hp.ne]
        · intro n hnp hnc
          simp [Forest.insert, Forest.new, Forest.modify, hnp, hnc]
      rw [hget]
      have hkept : ∀ n ∈ gs.nodes, f'.node n = f.node n := fun n hn =>
        hframe n (hgs n hn).1 (hgs n hn).2
      have hnodes : (gs.append (.cons f.count .nil .nil)).nodes = gs.nodes ++ [f.count] := by
        rw [Grove.nodes_append]
        rfl
      have hroots : (gs.append (.cons f.count .nil .nil)).roots = gs.roots ++ [f.count] := by
        rw [Grove.roots_append]
        rfl
      refine ⟨gs.append (.cons f.count .nil .nil), ?_, ?_, ?_, ?_, ?_, ?_, ?_, ?_, ?_, ?_, ?_, ?_,
        ⟨?_, ?_, ?_, ?_⟩⟩
      · rw [hparent, hroots, h.children, List.append_assoc]
      · refine (h.holds.congr hkept).append ⟨?_, ?_, trivial, trivial⟩
        · rw [hnew]
        · rw [hnew]
          rfl
      · rw [hnodes, ← List.cons_append]
        refine List.nodup_append.mpr ⟨h.nodup, List.nodup_singleton _, fun n hn m hm => ?_⟩
        rw [List.mem_singleton.mp hm]
        exact (h.lt n hn).ne
      · intro n hn
        rw [hnodes, ← List.cons_append] at hn
        rw [hcount]
        rcases List.mem_append.mp hn with hn | hn
        · exact Nat.lt_succ_of_lt (h.lt n hn)
        · rw [List.mem_singleton.mp hn]
          exact Nat.lt_succ_self _
      · intro n hn
        rw [hnodes] at hn
        rcases List.mem_append.mp hn with hn | hn
        · rw [Quiet, hkept n hn]
          exact h.quiet n hn
        · rw [List.mem_singleton.mp hn, Quiet, hnew]
          exact ⟨k, rfl, .inl rfl⟩
      · intro k' hk' g' hg'
        rw [hroots]
        rw [hparent] at hg'
        by_cases hkk : k' = k
        · subst hkk
          rw [lookup_assign_self] at hg'
          obtain rfl := Option.some.inj hg'
          refine ⟨List.mem_append_right _ List.mem_cons_self, .inr rfl, ?_, ?_⟩
          · rw [hnew]
          · rw [hnew]
        · rw [lookup_assign_of_ne hkk] at hg'
          obtain ⟨hmem, hrest⟩ := h.indexed k' hk' g' hg'
          rw [hkept g' (Grove.roots_subset_nodes gs hmem)]
          exact ⟨List.mem_append_left _ hmem, hrest.imp_left .inl⟩
      · rw [hroots]
        exact List.mem_append_right _ List.mem_cons_self
      · rw [hnew]
      · rw [hnew]
      · intro c
        rw [Grove.graft_append fun hn => (hgs _ hn).2 rfl, Grove.leaves_append, Grove.graft,
          if_pos rfl]
        exact .refl _
      · rw [hnodes]
        exact List.subset_append_left _ _
      · intro n hn
        rw [hnodes] at hn
        exact (List.mem_append.mp hn).imp_right fun hn => (List.mem_singleton.mp hn).ge
      · rw [hcount]
        exact Nat.le_succ _
      · intro n hn
        by_cases hnp : n = p
        · rw [hnp, hparent]
        · rw [hframe n hnp hn.ne]
      · intro n hn _
        by_cases hnp : n = p
        · rw [hnp, hparent]
          exact ⟨rfl, rfl⟩
        · rw [hframe n hnp hn.ne]
          exact ⟨rfl, rfl⟩
      · intro n hn hnp
        exact hframe n hnp hn.ne

end Move

section Files

variable {f f' : PrjTree} {p c d : ℕ} {gs : Grove ℕ} {front : List ℕ} {k lang : Str}
  {K : Str → Prop}

/-- The files `cs` of a language have been moved below the groups of `p`; only the nodes `ds` have
been touched besides. -/
structure Moved (f f' : PrjTree) (p : ℕ) (ds : List ℕ) (gs gs' : Grove ℕ) (lang : Str)
    (cs : List ℕ) : Prop where
  leaves : gs'.leaves.Perm (gs.leaves ++ cs)
  subset : gs.nodes ⊆ gs'.nodes
  new : ∀ n ∈ gs'.nodes, n ∈ gs.nodes ∨ n ∈ cs ∨ f.count ≤ n
  changes : Changes f f' (· ∈ cs) fun n => n = p ∨ n ∈ ds ∨ n ∈ cs ∨ n ∈ gs.nodes
  moved : ∀ c ∈ cs, c ∈ gs'.nodes ∧ (f'.node c).name = some (Path.getbasename lang) ∧
    ∃ g ∈ gs'.nodes, (f'.node c).parent = some g ∧ (f'.node g).name = (f.node c).name ∧
      (f'.node g).data.kind = some vgroup

theorem Groups.movefile (h : Groups K f p front gs) (hlt : c < f.count) (hcp : c ≠ p)
    (hcgs : c ∉ gs.nodes) (hleaf : (f.node c).children = []) (hname : (f.node c).name = some k)
    (hk : K k) (hext : Path.getextension k ≠ lproj) (lang : Str) :
    ∃ gs', Groups K (Xcode.movefile lang p f c) p front gs' ∧
      Moved f (Xcode.movefile lang p f c) p [] gs gs' lang [c] := by
  obtain ⟨gs', ho⟩ := h.getgroup hk hext
  rw [← hname] at ho
  generalize hf₁ : Xcode.getgroup f p (f.node c).name = r at ho
  obtain ⟨f₁, g⟩ := r
  have hmove : Xcode.movefile lang p f c = (f₁.modify c fun n =>
      { n with name := some (Path.getbasename lang) }).insert g c := by
    rw [Xcode.movefile, hf₁]
  have hcgs' : c ∉ gs'.nodes := fun hn => (ho.new c hn).elim hcgs fun hle => hlt.not_ge hle
  have hg : g ∈ gs'.nodes := Grove.roots_subset_nodes gs' ho.mem
  have hgc : g ≠ c := fun hgc => hcgs' (hgc ▸ hg)
  have hgp : g ≠ p := fun hgp => (List.nodup_cons.mp ho.nodup).1 (hgp ▸ hg)
  have hc₁ : f₁.node c = f.node c := ho.changes.frame c hlt hcp
  -- What the two steps after the lookup do.
  obtain ⟨hcount, hnodec, hnodeg, hframe⟩ : (Xcode.movefile lang p f c).count = f₁.count ∧
      (Xcode.movefile lang p f c).node c = { f₁.node c with
        name := some (Path.getbasename lang), parent := some g } ∧
      (∃ index, (Xcode.movefile lang p f c).node g = { f₁.node g with
        children := (f₁.node g).children ++ [c], index := index }) ∧
      ∀ n, n ≠ g → n ≠ c → (Xcode.movefile lang p f c).node n = f₁.node n := by
    rw [hmove]
    refine ⟨rfl, ?_, ⟨assign (Path.getbasename lang) c (f₁.node g).index, ?_⟩, fun n hng hnc => ?_⟩
    · simp [Forest.insert, Forest.modify, hgc.symm]
    · simp [Forest.insert, Forest.modify, hgc]
    · simp [Forest.insert, Forest.modify, hng, hnc]
  obtain ⟨index, hnodeg⟩ := hnodeg
  have hpnode : (Xcode.movefile lang p f c).node p = f₁.node p := hframe p hgp.symm hcp.symm
  have hnodup : (gs'.nodes ++ [c]).Nodup := by
    refine List.nodup_append.mpr ⟨(List.nodup_cons.mp ho.nodup).2, List.nodup_singleton c,
      fun n hn m hm hnm => hcgs' ?_⟩
    rwa [← List.mem_singleton.mp hm, ← hnm]
  have hnodes : (gs'.graft g (.cons c .nil .nil)).nodes.Perm (gs'.nodes ++ [c]) :=
    Grove.nodes_graft (List.nodup_cons.mp ho.nodup).2 hg
  have hmem : ∀ {n}, n ∈ (gs'.graft g (.cons c .nil .nil)).nodes ↔ n ∈ gs'.nodes ∨ n = c :=
    fun {n} => hnodes.mem_iff.trans (List.mem_append.trans (or_congr_right List.mem_singleton))
  have hcnew : c ∈ (gs'.graft g (.cons c .nil .nil)).nodes := hmem.mpr (.inr rfl)
  have hlabels : ∀ n, n ≠ c → ((Xcode.movefile lang p f c).node n).name = (f₁.node n).name ∧
      ((Xcode.movefile lang p f c).node n).parent = (f₁.node n).parent ∧
      ((Xcode.movefile lang p f c).node n).data = (f₁.node n).data := by
    intro n hnc
    by_cases hng : n = g
    · rw [hng, hnodeg]
      exact ⟨rfl, rfl, rfl⟩
    · rw [hframe n hng hnc]
      exact ⟨rfl, rfl, rfl⟩
  have hchildren : ∀ n, n ≠ g → ((Xcode.movefile lang p f c).node n).children =
      (f₁.node n).children := by
    intro n hng
    by_cases hnc : n = c
    · rw [hnc, hnodec]
    · rw [hframe n hng hnc]
  have hgne : ((Xcode.movefile lang p f c).node g).children ≠ [] := by
    rw [hnodeg]
    exact List.append_ne_nil_of_right_ne_nil _ (List.cons_ne_nil _ _)
  refine ⟨gs'.graft g (.cons c .nil .nil), ⟨?_, ?_, ?_, ?_, ?_, ?_⟩, ⟨ho.leaves c, ?_, ?_, ?_, ?_⟩⟩
  · rw [hpnode, ho.children, Grove.roots_graft]
  · rw [hmove]
    refine Holds.insert (ho.holds.congr fun n hn => ?_) trivial ?_ hnodup hgc List.not_mem_nil
    · have hnc : n ≠ c := fun hnc => hcgs' (hnc ▸ hn)
      simp [Forest.modify, hnc]
    · simpa [Forest.modify, Grove.roots, hc₁] using hleaf
  · refine ((hnodes.cons p).nodup_iff).mpr ?_
    rw [← List.cons_append]
    refine List.nodup_append.mpr ⟨ho.nodup, List.nodup_singleton c, fun n hn m hm hnm => ?_⟩
    rw [List.mem_singleton.mp hm] at hnm
    exact (List.mem_cons.mp hn).elim (fun hnp => hcp (hnm.symm.trans hnp)) fun hn =>
      hcgs' (hnm ▸ hn)
  · intro n hn
    rw [hcount]
    rcases List.mem_cons.mp hn with rfl | hn
    · exact ho.lt n List.mem_cons_self
    · rcases hmem.mp hn with hn | rfl
      · exact ho.lt n (List.mem_cons_of_mem _ hn)
      · exact hlt.trans_le ho.changes.le
  · intro n hn
    by_cases hnc : n = c
    · rw [hnc, Quiet, hnodec, hc₁]
      exact ⟨_, rfl, .inl hleaf⟩
    · rw [Quiet, (hlabels n hnc).1]
      by_cases hng : n = g
      · exact ⟨k, hng ▸ ho.name, .inr hext⟩
      · rw [hchildren n hng]
        exact ho.quiet n ((hmem.mp hn).resolve_right hnc)
  · intro k' hk' g' hg'
    rw [hpnode] at hg'
    obtain ⟨hroot, hbranch, hname', hkind'⟩ := ho.indexed k' hk' g' hg'
    have hgc' : g' ≠ c := fun h => hcgs' (h ▸ Grove.roots_subset_nodes gs' hroot)
    rw [Grove.roots_graft, (hlabels g' hgc').1, (hlabels g' hgc').2.2]
    refine ⟨hroot, ?_, hname', hkind'⟩
    by_cases hgg : g' = g
    · rwa [hgg]
    · rw [hchildren g' hgg]
      exact hbranch.resolve_right hgg
  · exact fun n hn => hmem.mpr (.inl (ho.subset hn))
  · intro n hn
    rcases hmem.mp hn with hn | rfl
    · exact (ho.new n hn).imp_right .inr
    · exact .inr (.inl List.mem_cons_self)
  · refine ⟨?_, fun n hn => ?_, fun n hn hnc => ?_, fun n hn ht => ?_⟩
    · rw [hcount]
      exact ho.changes.le
    · rw [← ho.changes.data n hn]
      by_cases hnc : n = c
      · rw [hnc, hnodec]
      · exact (hlabels n hnc).2.2
    · obtain ⟨hname', hparent'⟩ := ho.changes.labels n hn not_false
      obtain ⟨hname'', hparent'', -⟩ := hlabels n fun h => hnc (List.mem_singleton.mpr h)
      exact ⟨hname''.trans hname', hparent''.trans hparent'⟩
    · rw [not_or, not_or, not_or] at ht
      obtain ⟨hnp, -, htc, htgs⟩ := ht
      have hng : n ≠ g := fun h => (ho.new g hg).elim (h ▸ htgs) fun hle => hn.not_ge (h ▸ hle)
      rw [hframe n hng fun h => htc (List.mem_singleton.mpr h)]
      exact ho.changes.frame n hn hnp
  · intro c' hc'
    rw [List.mem_singleton.mp hc']
    refine ⟨hcnew, ?_, g, hmem.mpr (.inl hg), ?_, ?_, ?_⟩
    · rw [hnodec]
    · rw [hnodec]
    · rw [(hlabels g hgc).1, hname]
      exact ho.name
    · rw [(hlabels g hgc).2.2]
      exact ho.kind

theorem Moved.refl (f : PrjTree) (p : ℕ) (gs : Grove ℕ) (lang : Str) :
    Moved f f p [] gs gs lang [] where
  leaves := .of_eq (List.append_nil _).symm
  subset := List.Subset.refl _
  new _ hn := .inl hn
  changes := .refl _ _ _
  moved _ hc := absurd hc List.not_mem_nil

theorem Moved.cons {f₁ : PrjTree} {ds : List ℕ} {gs₁ gs' : Grove ℕ} {cs : List ℕ}
    (h : Moved f f₁ p ds gs gs₁ lang [c]) (hgs₁ : ∀ n ∈ gs₁.nodes, n < f₁.count)
    (h' : Moved f₁ f' p ds gs₁ gs' lang cs) (hlt : ∀ n ∈ c :: cs, n < f.count)
    (hcs : ∀ n ∈ cs, n ≠ c ∧ n ∉ gs₁.nodes) : Moved f f' p ds gs gs' lang (c :: cs) where
  leaves := by
    refine h'.leaves.trans ((h.leaves.append_right cs).trans (.of_eq ?_))
    rw [List.append_assoc, List.singleton_append]
  subset n hn := h'.subset (h.subset hn)
  new n hn := by
    rcases h'.new n hn with hn | hn | hn
    · rcases h.new n hn with hn | hn | hn
      · exact .inl hn
      · exact .inr (.inl (List.mem_singleton.mp hn ▸ List.mem_cons_self))
      · exact .inr (.inr hn)
    · exact .inr (.inl (List.mem_cons_of_mem _ hn))
    · exact .inr (.inr (h.changes.le.trans hn))
  changes := by
    refine (h.changes.trans h'.changes).mono (fun n _ hn => ?_) fun n hlt hn => ?_
    · rcases hn with hn | hn
      · exact List.mem_singleton.mp hn ▸ List.mem_cons_self
      · exact List.mem_cons_of_mem _ hn
    · have hc : n ∈ [c] → n ∈ c :: cs := fun hn =>
        List.mem_singleton.mp hn ▸ List.mem_cons_self
      rcases hn with (hn | hn | hn | hn) | (hn | hn | hn | hn)
      · exact .inl hn
      · exact .inr (.inl hn)
      · exact .inr (.inr (.inl (hc hn)))
      · exact .inr (.inr (.inr hn))
      · exact .inl hn
      · exact .inr (.inl hn)
      · exact .inr (.inr (.inl (List.mem_cons_of_mem _ hn)))
      · rcases h.new n hn with hn | hn | hn
        · exact .inr (.inr (.inr hn))
        · exact .inr (.inr (.inl (hc hn)))
        · exact absurd hn hlt.not_ge
  moved m hm := by
    rcases List.mem_cons.mp hm with rfl | hm
    · obtain ⟨hmem, hname, g, hg, hparent, hgname, hkind⟩ := h.moved m List.mem_cons_self
      have hmcs : m ∉ cs := fun hm => (hcs m hm).1 rfl
      obtain ⟨hname', hparent'⟩ := h'.changes.labels m (hgs₁ m hmem) hmcs
      obtain ⟨hgname', -⟩ := h'.changes.labels g (hgs₁ g hg) fun hn => (hcs g hn).2 hg
      exact ⟨h'.subset hmem, hname'.trans hname, g, h'.subset hg, hparent'.trans hparent,
        hgname'.trans hgname, (congrArg _ (h'.changes.data g (hgs₁ g hg))).trans hkind⟩
    · obtain ⟨hmem, hname, g, hg, hparent, hgname, hkind⟩ := h'.moved m hm
      have hname₁ := (h.changes.labels m (hlt m (List.mem_cons_of_mem _ hm))
        fun h => (hcs m hm).1 (List.mem_singleton.mp h)).1
      exact ⟨hmem, hname, g, hg, hparent, hgname.trans hname₁, hkind⟩

theorem movefiles_spec {done cs : List ℕ} (h : Groups K f p front gs)
    (hparent : (f.node d).parent = some p) (hd : d < f.count) (hdp : d ≠ p) (hdgs : d ∉ gs.nodes)
    (hchildren : (f.node d).children = done ++ cs) (hcs : (d :: cs).Nodup)
    (hlt : ∀ c ∈ cs, c < f.count ∧ c ≠ p ∧ c ∉ gs.nodes)
    (hfiles : ∀ c ∈ cs, (f.node c).children = [] ∧
      ∃ k, (f.node c).name = some k ∧ K k ∧ Path.getextension k ≠ lproj) :
    ∃ f' gs', (∀ fuel, cs.length < fuel → movefiles lang d fuel done.length f = some f') ∧
      Groups K f' p front gs' ∧ Moved f f' p [] gs gs' lang cs := by
  induction cs generalizing f gs done with
  | nil =>
      refine ⟨f, gs, fun fuel hfuel => ?_, h, .refl f p gs lang⟩
      obtain ⟨fuel, rfl⟩ : ∃ k, fuel = k + 1 := ⟨fuel - 1, by omega⟩
      rw [movefiles, hchildren]
      simp
  | cons c cs ih =>
      obtain ⟨hleaf, k, hname, hk, hext⟩ := hfiles c List.mem_cons_self
      obtain ⟨hclt, hcp, hcgs⟩ := hlt c List.mem_cons_self
      obtain ⟨hdcs, hcs⟩ := List.nodup_cons.mp hcs
      obtain ⟨hccs, hcs⟩ := List.nodup_cons.mp hcs
      obtain ⟨gs₁, hg₁, hmoved⟩ := h.movefile hclt hcp hcgs hleaf hname hk hext lang
      -- The other files and the directory stay as they are.
      have hkept : ∀ n, n < f.count → n ≠ p → n ∉ gs.nodes → n ≠ c →
          (movefile lang p f c).node n = f.node n ∧ n ∉ gs₁.nodes := by
        intro n hn hnp hngs hnc
        refine ⟨hmoved.changes.frame n hn (by simp [hnp, hnc, hngs]), fun hmem => ?_⟩
        rcases hmoved.new n hmem with h | h | h
        · exact hngs h
        · exact hnc (List.mem_singleton.mp h)
        · exact hn.not_ge h
      have hne : ∀ m ∈ cs, m ≠ c := fun m hm hmc => hccs (hmc ▸ hm)
      obtain ⟨hnoded, hdgs₁⟩ := hkept d hd hdp hdgs fun h => hdcs (h ▸ List.mem_cons_self)
      obtain ⟨f', gs', hrun, hg', hmoved'⟩ := @ih (movefile lang p f c) gs₁ (done ++ [c]) hg₁
        (by rw [hnoded, hparent]) (hd.trans_le hmoved.changes.le) hdgs₁
        (by rw [hnoded, hchildren, List.append_assoc, List.singleton_append])
        (List.nodup_cons.mpr ⟨fun h => hdcs (List.mem_cons_of_mem _ h), hcs⟩)
        (fun m hm => by
          obtain ⟨hmlt, hmp, hmgs⟩ := hlt m (List.mem_cons_of_mem _ hm)
          exact ⟨hmlt.trans_le hmoved.changes.le, hmp, (hkept m hmlt hmp hmgs (hne m hm)).2⟩)
        (fun m hm => by
          obtain ⟨hmlt, hmp, hmgs⟩ := hlt m (List.mem_cons_of_mem _ hm)
          rw [(hkept m hmlt hmp hmgs (hne m hm)).1]
          exact hfiles m (List.mem_cons_of_mem _ hm))
      refine ⟨f', gs', fun fuel hfuel => ?_, hg', hmoved.cons
        (fun n hn => hg₁.lt n (List.mem_cons_of_mem _ hn)) hmoved' (fun m hm => (hlt m hm).1)
        fun m hm => ⟨hne m hm, ?_⟩⟩
      · obtain ⟨fuel, rfl⟩ : ∃ k, fuel = k + 1 := ⟨fuel - 1, by omega⟩
        rw [List.length_cons] at hfuel
        have hrest := hrun fuel (by omega)
        rw [List.length_append] at hrest
        rw [movefiles, hchildren]
        simpa [hparent] using hrest
      · obtain ⟨hmlt, hmp, hmgs⟩ := hlt m (List.mem_cons_of_mem _ hm)
        exact (hkept m hmlt hmp hmgs (hne m hm)).2

end Files

end Xcode

end Puremake
