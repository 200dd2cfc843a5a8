import Puremake.Tree.Traverse
import Puremake.Xcode.Groups

/-!
# Localized files in the Xcode tree

`xcode.buildprjtree` goes through the source tree and empties every directory of a language into
the groups beside it; then it takes the directory out. The name of a file may stand for
another node than a group, a directory may be in a directory of a language, and a
language may have a dot in its name. Where none of this happens, the pass keeps every
file, and every file of a language is in its group.
-/

namespace Puremake

namespace Xcode

open Puremake.Tree

/-- The function `onbranch` of the pass. -/
def localizeBranch (fuel : ℕ) : Callback NodeData Unit := fun node _ s => do
  let name ← (s.1.node node).name
  if Path.getextension name = lproj then
    let f ← movefiles (Path.getbasename name) node fuel 0 s.1
    (f.remove node).map (·, s.2)
  else some s

def localizing (fuel : ℕ) : Callbacks NodeData Unit where
  onbranch := localizeBranch fuel

/-- The pass of `xcode.buildprjtree` over the localised files. -/
def localize (fuel : ℕ) (tr : ℕ) (f : PrjTree) : Option PrjTree :=
  (Tree.traverse (localizing fuel) fuel tr false 0 (f, ())).map Prod.fst

def IsLproj (f : PrjTree) (n : ℕ) : Prop :=
  (f.node n).children ≠ [] ∧ ∃ name, (f.node n).name = some name ∧ Path.getextension name = lproj

/-- What is to come of the tree `t`, in the heap `f`, when it is `t'` in `f'` after the
pass: there are no directories of languages; the leaves are those that were there, with their
settings; outside of the directories they are at their old place; and a file of a language
`d` is below a group with its name and has the name of the language. -/
structure Localized (f f' : PrjTree) (tr : ℕ) (t t' : Grove ℕ) : Prop where
  stands : Stands f' tr t'
  noLproj : ∀ n ∈ t'.nodes, ¬ IsLproj f' n
  leaves : t'.leaves.Perm t.leaves
  cfg : ∀ n ∈ t.leaves, (f'.node n).data.cfg = (f.node n).data.cfg
  outside : ∀ n as, (n, as) ∈ t.listing [] → n ∈ t.leaves → (∀ a ∈ as, ¬ IsLproj f a) →
    (n, as) ∈ t'.listing [] ∧ ∀ m ∈ n :: as, (f'.node m).name = (f.node m).name
  localized : ∀ n below d above, (n, below ++ d :: above) ∈ t.listing [] → n ∈ t.leaves →
    (∀ b ∈ below, ¬ IsLproj f b) → IsLproj f d → ∃ g as, (n, g :: as) ∈ t'.listing [] ∧
      (f'.node g).data.kind = some vgroup ∧ (f'.node g).name = (f.node n).name ∧
      (f'.node n).name = (f.node d).name.map Path.getbasename

/-- No child of `p` has the name. -/
def Unnamed (f : PrjTree) (p : ℕ) (k : Str) : Prop :=
  ∀ n ∈ (f.node p).children, (f.node n).name ≠ some k

/-- The directory `d` of a language in which nothing goes wrong, when the names in `K` are free
for groups. -/
structure TidyDir (K : Str → Prop) (f : PrjTree) (d : ℕ) : Prop where
  dotless : ∀ name, (f.node d).name = some name →
    Path.getbasename (Path.getbasename name) = Path.getbasename name
  files : ∀ c ∈ (f.node d).children, (f.node c).children = []
  names : ∀ c ∈ (f.node d).children, ∀ k, (f.node c).name = some k →
    Path.getextension k ≠ lproj ∧ K k

/-- In the directories of languages are only files, none of which is named like a node beside the
directory or has itself the extension, and the name of the language has no dot. -/
def Tidy (f : PrjTree) (tr : ℕ) (t : Grove ℕ) : Prop :=
  ∀ p ∈ tr :: t.nodes, ∀ d ∈ (f.node p).children, IsLproj f d → TidyDir (Unnamed f p) f d

section Decide

variable (K : Str → Prop) [DecidablePred K] (f : PrjTree) (tr n : ℕ) (t : Grove ℕ)

instance : Decidable (IsLproj f n) := inferInstanceAs (Decidable (_ ∧
  ∃ name ∈ (f.node n).name, Path.getextension name = lproj))

instance : DecidablePred (Unnamed f n) := fun k => inferInstanceAs (Decidable
  (∀ c ∈ (f.node n).children, (f.node c).name ≠ some k))

instance : Decidable (TidyDir K f n) :=
  decidable_of_iff ((∀ name ∈ (f.node n).name,
      Path.getbasename (Path.getbasename name) = Path.getbasename name) ∧
    (∀ c ∈ (f.node n).children, (f.node c).children = []) ∧
    ∀ c ∈ (f.node n).children, ∀ k ∈ (f.node c).name, Path.getextension k ≠ lproj ∧ K k)
    ⟨fun h => ⟨h.1, h.2.1, h.2.2⟩, fun h => ⟨h.dotless, h.files, h.names⟩⟩

instance : Decidable (Tidy f tr t) := inferInstanceAs (Decidable
  (∀ p ∈ tr :: t.nodes, ∀ d ∈ (f.node p).children, IsLproj f d → TidyDir (Unnamed f p) f d))

end Decide

section Quiet

variable {f : PrjTree}

theorem Quiet.not_isLproj {n : ℕ} (h : Quiet f n) : ¬ IsLproj f n := by
  rintro ⟨hchildren, name', hname', hext⟩
  obtain ⟨name, hname, hnil | hne⟩ := h
  · exact hchildren hnil
  · rw [hname] at hname'
    exact hne (Option.some.inj hname' ▸ hext)

end Quiet

section Visits

variable {f f' : PrjTree} {p d : ℕ} {gs t : Grove ℕ} {front rest : List ℕ} {K : Str → Prop}

theorem donode_localizing (k : ℕ) (loop : Callback NodeData Unit) (n depth : ℕ)
    (s : PrjTree × Unit) : donode (localizing k) loop n depth s =
      if (s.1.node n).children.length > 0 then
        (localizeBranch k n depth s).bind (loop n (depth + 1))
      else some s := by
  simp only [donode, localizing, Callback.skip, bind, Option.bind_some]
  split
  · cases localizeBranch k n depth s with
    | none => rfl
    | some s' =>
        simp only [Option.bind_some]
        cases loop n (depth + 1) s' with
        | none => rfl
        | some s'' => rfl
  · rfl

theorem localizeBranch_of_quiet {n : ℕ} (h : Quiet f n) (hne : (f.node n).children ≠ [])
    (k depth : ℕ) : localizeBranch k n depth (f, ()) = some (f, ()) := by
  obtain ⟨name, hname, hnil | hext⟩ := h
  · exact absurd hnil hne
  · simp [localizeBranch, hname, hext]

/-- The loop changes nothing where no directory of a language is. -/
theorem childrenLoop_of_quiet (h : Holds f p t) (hchildren : (f.node p).children = front ++ t.roots)
    (hquiet : ∀ n ∈ t.nodes, Quiet f n) : ∃ fuel₀, ∀ fuel, fuel₀ ≤ fuel → ∀ k depth,
      childrenLoop (localizing k) fuel p front.length depth (f, ()) = some (f, ()) := by
  induction t generalizing p front with
  | nil =>
      refine ⟨1, fun fuel hfuel k depth => ?_⟩
      obtain ⟨fuel, rfl⟩ := Nat.exists_eq_add_of_le' hfuel
      exact childrenLoop_end (by rw [hchildren]; simp [Grove.roots])
  | cons n below next ihb ihn =>
      obtain ⟨-, hbelow, hholdsb, hholdsn⟩ := h
      obtain ⟨fuel₁, hrun₁⟩ := @ihb n [] hholdsb hbelow fun m hm =>
        hquiet m (List.mem_cons_of_mem _ (List.mem_append_left _ hm))
      obtain ⟨fuel₂, hrun₂⟩ := @ihn p (front ++ [n]) hholdsn
        (by rw [hchildren, Grove.roots, List.append_assoc, List.singleton_append]) fun m hm =>
        hquiet m (List.mem_cons_of_mem _ (List.mem_append_right _ hm))
      refine ⟨max fuel₁ fuel₂ + 1, fun fuel hfuel k depth => ?_⟩
      obtain ⟨fuel, rfl⟩ : ∃ k, fuel = k + 1 := ⟨fuel - 1, by omega⟩
      have hvisit : donode (localizing k) (fun node depth s =>
          childrenLoop (localizing k) fuel node 0 depth s) n depth (f, ()) = some (f, ()) := by
        rw [donode_localizing]
        split
        · rename_i hpos
          rw [localizeBranch_of_quiet (hquiet n List.mem_cons_self)
            (List.ne_nil_of_length_pos hpos), Option.bind_some]
          exact hrun₁ fuel (by omega) k (depth + 1)
        · rfl
      have hrest := hrun₂ fuel (by omega) k depth
      rw [List.length_append, List.length_singleton] at hrest
      have hplace : (f.node p).children[front.length]? = some n := by
        rw [hchildren]
        simp [Grove.roots]
      rw [childrenLoop_keep hplace hvisit hplace, hrest]

/-- A directory of a language is visited: its files go below groups, and it is taken out. -/
theorem localizeBranch_of_isLproj (h : Groups K f p (front ++ d :: rest) gs)
    (hlproj : IsLproj f d) (htidy : TidyDir K f d) (hparent : (f.node d).parent = some p)
    (hd : d < f.count) (hdp : d ≠ p) (hdgs : d ∉ gs.nodes) (hdfront : d ∉ front) (hdrest : d ∉ rest)
    (hnodup : (d :: (f.node d).children).Nodup)
    (hlt : ∀ c ∈ (f.node d).children, c < f.count ∧ c ≠ p ∧ c ∉ gs.nodes)
    (hnamed : ∀ c ∈ (f.node d).children, ∃ name, (f.node c).name = some name) :
    ∃ fuel₀ f' gs' lang, (f.node d).name.map Path.getbasename = some (Path.getbasename lang) ∧
      (∀ k, fuel₀ ≤ k → ∀ depth, localizeBranch k d depth (f, ()) = some (f', ())) ∧
      Groups K f' p (front ++ rest) gs' ∧
      Moved f f' p [d] gs gs' lang (f.node d).children ∧ (f'.node d).children = [] := by
  obtain ⟨-, name, hname, hext⟩ := hlproj
  obtain ⟨f₁, gs', hrun, hg₁, hmoved⟩ := @movefiles_spec _ _ _ _ _
    (Path.getbasename name) _ [] _ h hparent hd hdp hdgs rfl hnodup hlt fun c hc => by
      obtain ⟨k, hk⟩ := hnamed c hc
      obtain ⟨hext, hK⟩ := htidy.names c hc k hk
      exact ⟨htidy.files c hc, k, hk, hK, hext⟩
  have hdcs : d ∉ (f.node d).children := (List.nodup_cons.mp hnodup).1
  have hnoded : f₁.node d = f.node d :=
    hmoved.changes.frame d hd (by simp [hdp, hdcs, hdgs])
  have hdgs' : d ∉ gs'.nodes := fun hmem => by
    rcases hmoved.new d hmem with h | h | h
    · exact hdgs h
    · exact hdcs h
    · exact hd.not_ge h
  have hdroots : d ∉ rest ++ gs'.roots := fun hmem => (List.mem_append.mp hmem).elim hdrest
    fun h => hdgs' (Grove.roots_subset_nodes gs' h)
  have hchildren : (f₁.node p).children = front ++ d :: (rest ++ gs'.roots) := by
    rw [hg₁.children, List.append_assoc, List.cons_append]
  obtain ⟨f', hf', hcount, hpnode, hdnode, hframe⟩ :=
    remove_node (by rw [hnoded, hparent]) hdp hchildren hdfront hdroots
  have hkept : ∀ n ∈ gs'.nodes, f'.node n = f₁.node n := fun n hn =>
    hframe n (fun h => (List.nodup_cons.mp hg₁.nodup).1 (h ▸ hn)) fun h => hdgs' (h ▸ hn)
  have hlabels : ∀ n, (f'.node n).name = (f₁.node n).name ∧
      (f'.node n).parent = (f₁.node n).parent ∧ (f'.node n).data = (f₁.node n).data := by
    intro n
    by_cases hnp : n = p
    · rw [hnp, hpnode]
      exact ⟨rfl, rfl, rfl⟩
    · by_cases hnd : n = d
      · rw [hnd, hdnode]
        exact ⟨rfl, rfl, rfl⟩
      · rw [hframe n hnp hnd]
        exact ⟨rfl, rfl, rfl⟩
  refine ⟨(f.node d).children.length + 1, f', gs', Path.getbasename name, ?_, fun k hk depth => ?_,
    ⟨?_, hg₁.holds.congr hkept, hg₁.nodup, ?_, ?_, ?_⟩, ⟨hmoved.leaves, hmoved.subset, hmoved.new,
    ⟨?_, ?_, ?_, ?_⟩, ?_⟩, ?_⟩
  · rw [hname, Option.map_some, htidy.dotless name hname]
  · have hloop := hrun k (Nat.lt_of_succ_le hk)
    rw [List.length_nil] at hloop
    simp [localizeBranch, hname, hext, hloop, hf']
  · rw [hpnode, List.append_assoc]
  · rw [hcount]
    exact hg₁.lt
  · intro n hn
    rw [Quiet, hkept n hn]
    exact hg₁.quiet n hn
  · intro k hk g hg
    rw [hpnode] at hg
    obtain ⟨hmem, hrest⟩ := hg₁.indexed k hk g hg
    rw [hkept g (Grove.roots_subset_nodes gs' hmem)]
    exact ⟨hmem, hrest⟩
  · rw [hcount]
    exact hmoved.changes.le
  · exact fun n hn => (hlabels n).2.2.trans (hmoved.changes.data n hn)
  · intro n hn hcs
    obtain ⟨hname', hparent'⟩ := hmoved.changes.labels n hn hcs
    exact ⟨(hlabels n).1.trans hname', (hlabels n).2.1.trans hparent'⟩
  · intro n hn ht
    simp only [not_or, List.mem_singleton] at ht
    obtain ⟨hnp, hnd, hncs, hngs⟩ := ht
    rw [hframe n hnp hnd]
    exact hmoved.changes.frame n hn (by simp [hnp, hncs, hngs])
  · intro c hc
    obtain ⟨hmem, hname', g, hg, hparent', hgname, hkind⟩ := hmoved.moved c hc
    refine ⟨hmem, (hlabels c).1.trans hname', g, hg, (hlabels c).2.1.trans hparent',
      (hlabels g).1.trans hgname, ?_⟩
    rw [(hlabels g).2.2]
    exact hkind
  · rw [hdnode]

end Visits

section Pass

variable {f f' f₁ : PrjTree} {p n d : ℕ} {t gs r below next : Grove ℕ} {front : List ℕ}
  {K K' : Str → Prop}

theorem isLproj_congr (h : f'.node d = f.node d) : IsLproj f' d ↔ IsLproj f d := by
  rw [IsLproj, IsLproj, h]

theorem TidyDir.congr (h : TidyDir K f d) (hd : f'.node d = f.node d)
    (hc : ∀ c ∈ (f.node d).children, f'.node c = f.node c) (hK : ∀ k, K k → K' k) :
    TidyDir K' f' d where
  dotless := by
    rw [hd]
    exact h.dotless
  files c hmem := by
    rw [hd] at hmem
    rw [hc c hmem]
    exact h.files c hmem
  names c hmem k hk := by
    rw [hd] at hmem
    rw [hc c hmem] at hk
    exact (h.names c hmem k hk).imp_right (hK k)

/-- The part `t` of the children of `p` is as the pass can work on it. -/
structure Ready (K : Str → Prop) (f : PrjTree) (p : ℕ) (t : Grove ℕ) : Prop where
  holds : Holds f p t
  lt : ∀ n ∈ t.nodes, n < f.count
  named : ∀ n ∈ t.nodes, ∃ name, (f.node n).name = some name
  roots : ∀ d ∈ t.roots, IsLproj f d → TidyDir K f d
  below : ∀ n ∈ t.nodes, ∀ d ∈ (f.node n).children, IsLproj f d → TidyDir (Unnamed f n) f d
  keyed : ∀ n ∈ t.nodes, ∀ k c, (f.node n).index.lookup k = some c →
    c ∈ (f.node n).children ∧ (f.node c).name = some k

theorem Ready.congr (h : Ready K f p t) (hle : f.count ≤ f'.count)
    (heq : ∀ n ∈ t.nodes, f'.node n = f.node n) : Ready K f' p t := by
  have hmem : ∀ n ∈ t.nodes, ∀ c ∈ (f.node n).children, c ∈ t.nodes := fun n hn c hc =>
    (h.holds.mem_of_mem_children hn hc).1
  refine ⟨h.holds.congr heq, fun n hn => (h.lt n hn).trans_le hle, fun n hn => ?_,
    fun d hd hlproj => ?_, fun n hn d hd hlproj => ?_, fun n hn k c hk => ?_⟩
  · rw [heq n hn]
    exact h.named n hn
  · have hdt := Grove.roots_subset_nodes t hd
    rw [isLproj_congr (heq d hdt)] at hlproj
    exact (h.roots d hd hlproj).congr (heq d hdt) (fun c hc => heq c (hmem d hdt c hc))
      fun _ => id
  · rw [heq n hn] at hd
    have hdt := hmem n hn d hd
    rw [isLproj_congr (heq d hdt)] at hlproj
    refine (h.below n hn d hd hlproj).congr (heq d hdt) (fun c hc => heq c (hmem d hdt c hc))
      fun k hk c hc => ?_
    rw [heq n hn] at hc
    rw [heq c (hmem n hn c hc)]
    exact hk c hc
  · rw [heq n hn] at hk ⊢
    obtain ⟨hc, hname⟩ := h.keyed n hn k c hk
    rw [heq c (hmem n hn c hc)]
    exact ⟨hc, hname⟩

theorem Ready.inner (h : Ready K f p (.cons n below next)) :
    Ready (Unnamed f n) f n below := by
  obtain ⟨-, hbelow, hholds, -⟩ := h.holds
  have hmem : ∀ m ∈ below.nodes, m ∈ (Grove.cons n below next).nodes := fun m hm =>
    List.mem_cons_of_mem _ (List.mem_append_left _ hm)
  exact ⟨hholds, fun m hm => h.lt m (hmem m hm), fun m hm => h.named m (hmem m hm),
    fun d hd => h.below n List.mem_cons_self d (hbelow ▸ hd),
    fun m hm => h.below m (hmem m hm), fun m hm => h.keyed m (hmem m hm)⟩

theorem Ready.rest (h : Ready K f p (.cons n below next)) : Ready K f p next := by
  obtain ⟨-, -, -, hholds⟩ := h.holds
  have hmem : ∀ m ∈ next.nodes, m ∈ (Grove.cons n below next).nodes := fun m hm =>
    List.mem_cons_of_mem _ (List.mem_append_right _ hm)
  exact ⟨hholds, fun m hm => h.lt m (hmem m hm), fun m hm => h.named m (hmem m hm),
    fun d hd => h.roots d (List.mem_cons_of_mem _ hd),
    fun m hm => h.below m (hmem m hm), fun m hm => h.keyed m (hmem m hm)⟩

theorem Ready.groups (h : Ready K f p (.cons n below next)) :
    Groups (Unnamed f n) f n ([] ++ below.roots) .nil where
  children := by
    obtain ⟨-, hbelow, -⟩ := h.holds
    rw [hbelow, Grove.roots, List.append_nil, List.nil_append]
  holds := trivial
  nodup := List.nodup_singleton n
  lt m hm := List.mem_singleton.mp hm ▸ h.lt n List.mem_cons_self
  quiet m hm := absurd hm List.not_mem_nil
  indexed k hk g hg := by
    obtain ⟨hmem, hname⟩ := h.keyed n List.mem_cons_self k g hg
    exact absurd hname (hk g hmem)

/-- The files of the directories of languages in a grove. -/
def MovedIn (f : PrjTree) (t : Grove ℕ) (n : ℕ) : Prop :=
  ∃ d ∈ t.nodes, IsLproj f d ∧ (f.node n).parent = some d

/-- What has come of the part `t` of the children of `p` and of the groups `gs`, when all
of them have been visited and `r` is left. -/
structure Passed (f f' : PrjTree) (p : ℕ) (front : List ℕ) (t gs r : Grove ℕ) : Prop where
  children : (f'.node p).children = front ++ r.roots
  holds : Holds f' p r
  nodup : (p :: r.nodes).Nodup
  lt : ∀ n ∈ r.nodes, n < f'.count
  quiet : ∀ n ∈ r.nodes, Quiet f' n
  leaves : r.leaves.Perm (t.leaves ++ gs.leaves)
  subset : gs.nodes ⊆ r.nodes
  new : ∀ n ∈ r.nodes, n ∈ t.nodes ∨ n ∈ gs.nodes ∨ f.count ≤ n
  changes : Changes f f' (MovedIn f t) fun n => n = p ∨ n ∈ t.nodes ∨ n ∈ gs.nodes
  outside : ∀ n ∈ t.nodes, ¬ IsLproj f n → ¬ MovedIn f t n → n ∈ r.nodes
  moved : ∀ d ∈ t.nodes, IsLproj f d → ∀ c ∈ (f.node d).children, c ∈ r.nodes ∧
    (f'.node c).name = (f.node d).name.map Path.getbasename ∧
    ∃ g ∈ r.nodes, (f'.node c).parent = some g ∧ (f'.node g).name = (f.node c).name ∧
      (f'.node g).data.kind = some vgroup

theorem Groups.passed (h : Groups K f p front gs) : Passed f f p front .nil gs gs where
  children := h.children
  holds := h.holds
  nodup := h.nodup
  lt n hn := h.lt n (List.mem_cons_of_mem _ hn)
  quiet := h.quiet
  leaves := .refl _
  subset := List.Subset.refl _
  new _ hn := .inr (.inl hn)
  changes := .refl _ _ _
  outside _ hn := absurd hn List.not_mem_nil
  moved _ hd := absurd hd List.not_mem_nil

theorem Passed.eq_nil_iff (h : Passed f f' p front t .nil r) : r = .nil ↔ t = .nil := by
  have hleaves := h.leaves
  rw [Grove.leaves, List.append_nil] at hleaves
  rw [← Grove.leaves_eq_nil_iff, ← @Grove.leaves_eq_nil_iff _ t]
  exact ⟨fun h => (h ▸ hleaves).nil_eq.symm, fun h => (h ▸ hleaves).eq_nil⟩

/-- The nodes of a standing part are not moved with the nodes of another one. -/
theorem not_movedIn (hholds : Holds f p r) (hn : n ∈ r.nodes)
    (hp : p ∉ t.nodes) (hdisj : ∀ m ∈ r.nodes, m ∉ t.nodes) : ¬ MovedIn f t n := by
  rintro ⟨d, hd, -, hparent⟩
  obtain ⟨q, hq, hparent'⟩ := hholds.parent_mem hn
  obtain rfl : q = d := Option.some.inj (hparent'.symm.trans hparent)
  rcases List.mem_cons.mp hq with rfl | hq
  · exact hp hd
  · exact hdisj q hq hd

/-- The pieces of a part of the children and the groups: no node is in two of them. -/
structure Apart (f : PrjTree) (p n : ℕ) (below next gs : Grove ℕ) : Prop where
  parent : p ≠ n ∧ p ∉ below.nodes ∧ p ∉ next.nodes ∧ p ∉ gs.nodes
  node : n ∉ below.nodes ∧ n ∉ next.nodes ∧ n ∉ gs.nodes
  below : ∀ m ∈ below.nodes, m ∉ next.nodes ∧ m ∉ gs.nodes
  next : ∀ m ∈ next.nodes, m ∉ gs.nodes
  lt : ∀ m ∈ p :: gs.nodes, m < f.count

theorem apart_of_nodup (h : (p :: (Grove.cons n below next).nodes ++ gs.nodes).Nodup)
    (hlt : ∀ m ∈ p :: gs.nodes, m < f.count) : Apart f p n below next gs := by
  rw [Grove.nodes, List.cons_append, List.nodup_cons, List.cons_append, List.nodup_cons,
    List.append_assoc] at h
  simp only [List.mem_cons, List.mem_append, not_or] at h
  obtain ⟨⟨hpn, hpb, hpx, hpg⟩, ⟨hnb, hnx, hng⟩, h⟩ := h
  obtain ⟨-, hxg, hb⟩ := List.nodup_append.mp h
  obtain ⟨-, -, hx⟩ := List.nodup_append.mp hxg
  exact ⟨⟨hpn, hpb, hpx, hpg⟩, ⟨hnb, hnx, hng⟩,
    fun m hm => ⟨fun h => hb m hm m (List.mem_append_left _ h) rfl,
      fun h => hb m hm m (List.mem_append_right _ h) rfl⟩,
    fun m hm h => hx m hm m h rfl, hlt⟩

/-- A node that is no directory of a language stays, with what is left below it. -/
theorem Passed.cons {rb rn : Grove ℕ} (hready : Ready K f p (.cons n below next))
    (hlproj : ¬ IsLproj f n) (hapart : Apart f p n below next gs)
    (hb : Passed f f₁ n [] below .nil rb) (hn : Passed f₁ f' p (front ++ [n]) next gs rn) :
    Passed f f' p front (.cons n below next) gs (.cons n rb rn) := by
  obtain ⟨hparent, hbelow, hholdsb, hholdsn⟩ := hready.holds
  obtain ⟨⟨hpn, hpb, hpx, hpg⟩, ⟨hnb, hnx, hng⟩, hbelow', hnext', hlt⟩ := hapart
  have hnlt : n < f.count := hready.lt n List.mem_cons_self
  have hplt : p < f.count := hlt p List.mem_cons_self
  have hmemb : ∀ m ∈ below.nodes, m ∈ (Grove.cons n below next).nodes := fun m hm =>
    List.mem_cons_of_mem _ (List.mem_append_left _ hm)
  have hmemx : ∀ m ∈ next.nodes, m ∈ (Grove.cons n below next).nodes := fun m hm =>
    List.mem_cons_of_mem _ (List.mem_append_right _ hm)
  have hnextlt : ∀ m ∈ next.nodes, m < f.count := fun m hm => hready.lt m (hmemx m hm)
  -- The nodes below `n` are those that were there and groups that are new.
  have hrb : ∀ m ∈ rb.nodes, m < f₁.count ∧ m ≠ p ∧ m ∉ next.nodes ∧ m ∉ gs.nodes := by
    intro m hm
    refine ⟨hb.lt m hm, ?_⟩
    rcases hb.new m hm with h | h | h
    · exact ⟨fun hmp => hpb (hmp ▸ h), hbelow' m h⟩
    · exact absurd h List.not_mem_nil
    · exact ⟨fun hmp => hplt.not_ge (hmp ▸ h), fun h' => (hnextlt m h').not_ge h,
        fun h' => (hlt m (List.mem_cons_of_mem _ h')).not_ge h⟩
  have hframe₁ : ∀ m ∈ next.nodes, f₁.node m = f.node m := fun m hm =>
    hb.changes.frame m (hnextlt m hm) <| by
      rw [not_or, not_or]
      exact ⟨fun h => hnx (h ▸ hm), fun h => (hbelow' m h).1 hm, List.not_mem_nil⟩
  have hkept : ∀ m ∈ n :: rb.nodes, f'.node m = f₁.node m := by
    intro m hm
    have hm' : m < f₁.count ∧ m ≠ p ∧ m ∉ next.nodes ∧ m ∉ gs.nodes := by
      rcases List.mem_cons.mp hm with rfl | hm
      · exact ⟨hnlt.trans_le hb.changes.le, hpn.symm, hnx, hng⟩
      · exact hrb m hm
    refine hn.changes.frame m hm'.1 ?_
    rw [not_or, not_or]
    exact hm'.2
  have hnode : f'.node n = f₁.node n := hkept n List.mem_cons_self
  obtain ⟨hname, hparent₁⟩ := hb.changes.labels n hnlt <| by
    rintro ⟨d, hd, -, hd'⟩
    exact hpb (Option.some.inj (hparent.symm.trans hd') ▸ hd)
  have hrbx : ∀ m ∈ rb.nodes, m ∉ rn.nodes := by
    intro m hm hmn
    rcases hn.new m hmn with h | h | h
    · exact (hrb m hm).2.2.1 h
    · exact (hrb m hm).2.2.2 h
    · exact (hrb m hm).1.not_ge h
  have hnrn : n ∉ rn.nodes := fun hmn => by
    rcases hn.new n hmn with h | h | h
    · exact hnx h
    · exact hng h
    · exact (hnlt.trans_le hb.changes.le).not_ge h
  have hmovedIn : ∀ {m}, m ∈ next.nodes → MovedIn f₁ next m → MovedIn f next m := by
    rintro m hm ⟨d, hd, hdl, hd'⟩
    rw [hframe₁ m hm] at hd'
    exact ⟨d, hd, (isLproj_congr (hframe₁ d hd)).mp hdl, hd'⟩
  have hmono : ∀ {s : Grove ℕ} {m}, (∀ d ∈ s.nodes, d ∈ (Grove.cons n below next).nodes) →
      MovedIn f s m → MovedIn f (.cons n below next) m := fun hs ⟨d, hd, h⟩ => ⟨d, hs d hd, h⟩
  refine ⟨?_, ⟨?_, ?_, hb.holds.congr fun m hm => hkept m (List.mem_cons_of_mem _ hm), hn.holds⟩,
    ?_, ?_, ?_, ?_, ?_, ?_, ⟨hb.changes.le.trans hn.changes.le, ?_, ?_, ?_⟩, ?_, ?_⟩
  · rw [hn.children, Grove.roots, List.append_assoc, List.singleton_append]
  · rw [hnode, hparent₁, hparent]
  · rw [hnode, hb.children, List.nil_append]
  · obtain ⟨hprn, hrn⟩ := List.nodup_cons.mp hn.nodup
    obtain ⟨hnrb, hrbn⟩ := List.nodup_cons.mp hb.nodup
    rw [Grove.nodes, List.nodup_cons, List.nodup_cons, List.nodup_append]
    refine ⟨?_, ?_, hrbn, hrn, fun m hm m' hm' h => hrbx m hm (h ▸ hm')⟩
    · simp only [List.mem_cons, List.mem_append, not_or]
      exact ⟨hpn, fun h => (hrb p h).2.1 rfl, hprn⟩
    · rw [List.mem_append, not_or]
      exact ⟨hnrb, hnrn⟩
  · intro m hm
    rw [Grove.nodes, List.mem_cons, List.mem_append] at hm
    rcases hm with rfl | hm | hm
    · exact (hnlt.trans_le hb.changes.le).trans_le hn.changes.le
    · exact (hb.lt m hm).trans_le hn.changes.le
    · exact hn.lt m hm
  · intro m hm
    rw [Grove.nodes, List.mem_cons, List.mem_append] at hm
    rcases hm with rfl | hm | hm
    · obtain ⟨name, hname'⟩ := hready.named m List.mem_cons_self
      refine ⟨name, by rw [hnode, hname, hname'], ?_⟩
      by_cases hnil : (f.node m).children = []
      · rw [hbelow, Grove.roots_eq_nil_iff, ← hb.eq_nil_iff] at hnil
        rw [hnode, hb.children, hnil]
        exact .inl rfl
      · exact .inr fun hext => hlproj ⟨hnil, name, hname', hext⟩
    · rw [Quiet, hkept m (List.mem_cons_of_mem _ hm)]
      exact hb.quiet m hm
    · exact hn.quiet m hm
  · by_cases hnil : below = .nil
    · obtain rfl := hb.eq_nil_iff.mpr hnil
      subst hnil
      exact hn.leaves.cons n
    · have hleaves := hb.leaves
      rw [Grove.leaves, List.append_nil] at hleaves
      rw [Grove.leaves_branch hnil, Grove.leaves_branch fun h => hnil (hb.eq_nil_iff.mp h),
        List.append_assoc]
      exact hleaves.append hn.leaves
  · intro m hm
    exact List.mem_cons_of_mem _ (List.mem_append_right _ (hn.subset hm))
  · intro m hm
    rw [Grove.nodes, List.mem_cons, List.mem_append] at hm
    rcases hm with rfl | hm | hm
    · exact .inl List.mem_cons_self
    · exact (hb.new m hm).imp (hmemb m) fun h => h.imp_left fun h => absurd h List.not_mem_nil
    · exact (hn.new m hm).imp (hmemx m) fun h => h.imp_right hb.changes.le.trans
  · intro m hm
    exact (hn.changes.data m (hm.trans_le hb.changes.le)).trans (hb.changes.data m hm)
  · intro m hm hmoved
    obtain ⟨hname₁, hparent₁⟩ := hb.changes.labels m hm fun h => hmoved (hmono hmemb h)
    obtain ⟨hname₂, hparent₂⟩ := hn.changes.labels m (hm.trans_le hb.changes.le) <| by
      rintro ⟨d, hd, hdl, hd'⟩
      exact hmoved ⟨d, hmemx d hd, (isLproj_congr (hframe₁ d hd)).mp hdl, hparent₁ ▸ hd'⟩
    exact ⟨hname₂.trans hname₁, hparent₂.trans hparent₁⟩
  · intro m hm ht
    simp only [Grove.nodes, List.mem_cons, List.mem_append, not_or] at ht
    obtain ⟨hmp, ⟨hmn, hmb, hmx⟩, hmg⟩ := ht
    rw [hn.changes.frame m (hm.trans_le hb.changes.le) (by simp [hmp, hmx, hmg]),
      hb.changes.frame m hm (by simp [hmn, hmb, Grove.nodes])]
  · intro m hm hml hmoved
    rw [Grove.nodes, List.mem_cons, List.mem_append] at hm
    rcases hm with rfl | hm | hm
    · exact List.mem_cons_self
    · exact List.mem_cons_of_mem _ (List.mem_append_left _
        (hb.outside m hm hml fun h => hmoved (hmono hmemb h)))
    · exact List.mem_cons_of_mem _ (List.mem_append_right _ (hn.outside m hm
        (fun h => hml ((isLproj_congr (hframe₁ m hm)).mp h))
        fun h => hmoved (hmono hmemx (hmovedIn hm h))))
  · intro d hd hdl c hc
    rw [Grove.nodes, List.mem_cons, List.mem_append] at hd
    rcases hd with rfl | hd | hd
    · exact absurd hdl hlproj
    · obtain ⟨hcr, hcname, g, hg, hcg, hgname, hkind⟩ := hb.moved d hd hdl c hc
      have hrbr : ∀ m ∈ rb.nodes, m ∈ (Grove.cons n rb rn).nodes := fun m hm =>
        List.mem_cons_of_mem _ (List.mem_append_left _ hm)
      rw [hkept c (List.mem_cons_of_mem _ hcr)]
      refine ⟨hrbr c hcr, hcname, g, hrbr g hg, hcg, ?_⟩
      rw [hkept g (List.mem_cons_of_mem _ hg)]
      exact ⟨hgname, hkind⟩
    · have hcx := (hholdsn.mem_of_mem_children hd hc).1
      have hrnr : ∀ m ∈ rn.nodes, m ∈ (Grove.cons n rb rn).nodes := fun m hm =>
        List.mem_cons_of_mem _ (List.mem_append_right _ hm)
      obtain ⟨hcr, hcname, g, hg, hcg, hgname, hkind⟩ := hn.moved d hd
        ((isLproj_congr (hframe₁ d hd)).mpr hdl) c (hframe₁ d hd ▸ hc)
      rw [hframe₁ d hd] at hcname
      rw [hframe₁ c hcx] at hgname
      exact ⟨hrnr c hcr, hcname, g, hrnr g hg, hcg, hgname, hkind⟩

/-- What follows a directory of a language stays as it is when the directory is visited. -/
theorem Moved.frame_next {gs₁ : Grove ℕ} {lang : Str} (hready : Ready K f p (.cons n below next))
    (hapart : Apart f p n below next gs)
    (hm : Moved f f₁ p [n] gs gs₁ lang (f.node n).children) :
    ∀ m ∈ next.nodes, f₁.node m = f.node m := by
  obtain ⟨-, hbelow, -⟩ := hready.holds
  intro m hmx
  refine hm.changes.frame m (hready.rest.lt m hmx) ?_
  rw [not_or, not_or, not_or, List.mem_singleton, hbelow]
  exact ⟨fun h => hapart.parent.2.2.1 (h ▸ hmx), fun h => hapart.node.2.1 (h ▸ hmx),
    fun h => (hapart.below m (Grove.roots_subset_nodes below h)).1 hmx, hapart.next m hmx⟩

/-- The files of a directory of a language are in groups, and the directory is out. -/
theorem Passed.clear {gs₁ : Grove ℕ} {lang : Str} (hready : Ready K f p (.cons n below next))
    (hlproj : IsLproj f n) (hapart : Apart f p n below next gs)
    (hlang : (f.node n).name.map Path.getbasename = some (Path.getbasename lang))
    (hg₁ : Groups K f₁ p (front ++ next.roots) gs₁)
    (hm : Moved f f₁ p [n] gs gs₁ lang (f.node n).children)
    (hn : Passed f₁ f' p front next gs₁ r) : Passed f f' p front (.cons n below next) gs r := by
  obtain ⟨hparent, hbelow, hholdsb, hholdsn⟩ := hready.holds
  obtain ⟨-, -, hpx, -⟩ := hapart.parent
  have htidy := hready.roots n List.mem_cons_self hlproj
  obtain ⟨hnodes, hleaves⟩ := hholdsb.nodes_eq_roots fun c hc => htidy.files c (hbelow ▸ hc)
  have hne : below ≠ .nil := fun h => hlproj.1 (by rw [hbelow, h]; rfl)
  have hcs : ∀ {m}, m ∈ (f.node n).children ↔ m ∈ below.nodes := by
    intro m
    rw [hbelow, hnodes]
  have hmemb : ∀ m ∈ below.nodes, m ∈ (Grove.cons n below next).nodes := fun m hm =>
    List.mem_cons_of_mem _ (List.mem_append_left _ hm)
  have hmemx : ∀ m ∈ next.nodes, m ∈ (Grove.cons n below next).nodes := fun m hm =>
    List.mem_cons_of_mem _ (List.mem_append_right _ hm)
  have hnextlt : ∀ m ∈ next.nodes, m < f.count := fun m hm => hready.lt m (hmemx m hm)
  have hframe₁ := hm.frame_next hready hapart
  have hgs₁ : ∀ m ∈ gs₁.nodes, m < f₁.count ∧ m ∉ next.nodes := by
    intro m hmem
    refine ⟨hg₁.lt m (List.mem_cons_of_mem _ hmem), fun hmx => ?_⟩
    rcases hm.new m hmem with h | h | h
    · exact hapart.next m hmx h
    · exact (hapart.below m (hcs.mp h)).1 hmx
    · exact (hnextlt m hmx).not_ge h
  have hlabels : ∀ m ∈ gs₁.nodes, (f'.node m).name = (f₁.node m).name ∧
      (f'.node m).parent = (f₁.node m).parent := fun m hmem =>
    hn.changes.labels m (hgs₁ m hmem).1 (not_movedIn hg₁.holds hmem hpx fun m h => (hgs₁ m h).2)
  refine ⟨hn.children, hn.holds, hn.nodup, hn.lt, hn.quiet, ?_, ?_, ?_,
    ⟨hm.changes.le.trans hn.changes.le, ?_, ?_, ?_⟩, ?_, ?_⟩
  · have hgs := hm.leaves
    rw [hbelow, ← hleaves] at hgs
    rw [Grove.leaves_branch hne, List.append_assoc]
    refine (hn.leaves.trans ((hgs.append_left _).trans ?_)).trans List.perm_append_comm
    rw [← List.append_assoc]
  · exact fun m hmem => hn.subset (hm.subset hmem)
  · intro m hmem
    rcases hn.new m hmem with h | h | h
    · exact .inl (hmemx m h)
    · rcases hm.new m h with h | h | h
      · exact .inr (.inl h)
      · exact .inl (hmemb m (hcs.mp h))
      · exact .inr (.inr h)
    · exact .inr (.inr (hm.changes.le.trans h))
  · intro m hlt
    exact (hn.changes.data m (hlt.trans_le hm.changes.le)).trans (hm.changes.data m hlt)
  · intro m hlt hmoved
    obtain ⟨hname₁, hparent₁⟩ := hm.changes.labels m hlt fun hc => hmoved
      ⟨n, List.mem_cons_self, hlproj, hholdsb.parent_of_mem_roots (hbelow ▸ hc)⟩
    obtain ⟨hname₂, hparent₂⟩ := hn.changes.labels m (hlt.trans_le hm.changes.le) <| by
      rintro ⟨d, hd, hdl, hd'⟩
      exact hmoved ⟨d, hmemx d hd, (isLproj_congr (hframe₁ d hd)).mp hdl, hparent₁ ▸ hd'⟩
    exact ⟨hname₂.trans hname₁, hparent₂.trans hparent₁⟩
  · intro m hlt ht
    simp only [Grove.nodes, List.mem_cons, List.mem_append, not_or] at ht
    obtain ⟨hmp, ⟨hmn, hmb, hmx⟩, hmg⟩ := ht
    have hmg₁ : m ∉ gs₁.nodes := fun h => (hm.new m h).elim hmg fun h =>
      h.elim (fun h => hmb (hcs.mp h)) hlt.not_ge
    rw [hn.changes.frame m (hlt.trans_le hm.changes.le) (by simp [hmp, hmx, hmg₁]),
      hm.changes.frame m hlt (by simp [hmp, hmn, hcs, hmb, hmg])]
  · intro m hmem hml hmoved
    rw [Grove.nodes, List.mem_cons, List.mem_append] at hmem
    rcases hmem with rfl | hmem | hmem
    · exact absurd hlproj hml
    · rw [hnodes] at hmem
      exact absurd ⟨n, List.mem_cons_self, hlproj, hholdsb.parent_of_mem_roots hmem⟩ hmoved
    · refine hn.outside m hmem (fun h => hml ((isLproj_congr (hframe₁ m hmem)).mp h)) ?_
      rintro ⟨d, hd, hdl, hd'⟩
      rw [hframe₁ m hmem] at hd'
      exact hmoved ⟨d, hmemx d hd, (isLproj_congr (hframe₁ d hd)).mp hdl, hd'⟩
  · intro d hd hdl c hc
    rw [Grove.nodes, List.mem_cons, List.mem_append] at hd
    rcases hd with rfl | hd | hd
    · obtain ⟨hcmem, hcname, g, hg, hcg, hgname, hkind⟩ := hm.moved c hc
      refine ⟨hn.subset hcmem, ?_, g, hn.subset hg, (hlabels c hcmem).2.trans hcg,
        (hlabels g hg).1.trans hgname, ?_⟩
      · rw [(hlabels c hcmem).1, hcname, hlang]
      · rw [hn.changes.data g (hgs₁ g hg).1]
        exact hkind
    · rw [hnodes] at hd
      exact absurd (htidy.files d (hbelow ▸ hd)) hdl.1
    · have hcx := (hholdsn.mem_of_mem_children hd hc).1
      obtain ⟨hcr, hcname, g, hg, hcg, hgname, hkind⟩ := hn.moved d hd
        ((isLproj_congr (hframe₁ d hd)).mpr hdl) c (hframe₁ d hd ▸ hc)
      rw [hframe₁ d hd] at hcname
      rw [hframe₁ c hcx] at hgname
      exact ⟨hcr, hcname, g, hg, hcg, hgname, hkind⟩

end Pass
section Run

variable {f f' : PrjTree} {p tr : ℕ} {t gs : Grove ℕ} {front : List ℕ} {K : Str → Prop}

theorem Groups.congr (h : Groups K f p front gs) (hle : f.count ≤ f'.count)
    (heq : ∀ m ∈ p :: gs.nodes, f'.node m = f.node m) : Groups K f' p front gs := by
  have hp : f'.node p = f.node p := heq p List.mem_cons_self
  have hgs : ∀ m ∈ gs.nodes, f'.node m = f.node m := fun m hm => heq m (List.mem_cons_of_mem _ hm)
  refine ⟨by rw [hp, h.children], h.holds.congr hgs, h.nodup,
    fun m hm => (h.lt m hm).trans_le hle, fun m hm => ?_, fun k hk g hg => ?_⟩
  · rw [Quiet, hgs m hm]
    exact h.quiet m hm
  · rw [hp] at hg
    obtain ⟨hmem, hrest⟩ := h.indexed k hk g hg
    rw [hgs g (Grove.roots_subset_nodes gs hmem)]
    exact ⟨hmem, hrest⟩

theorem exists_visit {n : ℕ} {below next : Grove ℕ} (hready : Ready K f p (.cons n below next))
    (hlproj : ¬ IsLproj f n)
    (hloop : ∃ fuel₀ f' r, (∀ fuel, fuel₀ ≤ fuel → ∀ k, fuel₀ ≤ k → ∀ depth,
        childrenLoop (localizing k) fuel n 0 depth (f, ()) = some (f', ())) ∧
      Passed f f' n [] below .nil r) :
    ∃ fuel₀ f' r, (∀ fuel, fuel₀ ≤ fuel → ∀ k, fuel₀ ≤ k → ∀ depth,
        donode (localizing k) (fun node depth s => childrenLoop (localizing k) fuel node 0 depth s)
          n depth (f, ()) = some (f', ())) ∧
      Passed f f' n [] below .nil r := by
  obtain ⟨-, hbelow, -⟩ := hready.holds
  by_cases hnil : (f.node n).children = []
  · obtain rfl : below = .nil := by rw [← Grove.roots_eq_nil_iff, ← hbelow, hnil]
    refine ⟨0, f, .nil, fun fuel _ k _ depth => ?_, hready.groups.passed⟩
    rw [donode_localizing, if_neg (by simp [hnil])]
  · obtain ⟨fuel₀, f', r, hrun, hpassed⟩ := hloop
    refine ⟨fuel₀, f', r, fun fuel hfuel k hk depth => ?_, hpassed⟩
    obtain ⟨name, hname⟩ := hready.named n List.mem_cons_self
    have hquiet : Quiet f n := ⟨name, hname, .inr fun hext => hlproj ⟨hnil, name, hname, hext⟩⟩
    rw [donode_localizing, if_pos (List.length_pos_of_ne_nil hnil),
      localizeBranch_of_quiet hquiet hnil, Option.bind_some]
    exact hrun fuel hfuel k hk (depth + 1)

/-- The pass over a part of the children of a node, and over the groups that have been made. -/
theorem childrenLoop_localizing (hready : Ready K f p t) (hg : Groups K f p (front ++ t.roots) gs)
    (hnodup : (p :: (front ++ (t.nodes ++ gs.nodes))).Nodup) (hfront : ∀ m ∈ front, m < f.count) :
    ∃ fuel₀ f' r, (∀ fuel, fuel₀ ≤ fuel → ∀ k, fuel₀ ≤ k → ∀ depth,
        childrenLoop (localizing k) fuel p front.length depth (f, ()) = some (f', ())) ∧
      Passed f f' p front t gs r := by
  induction t generalizing f p front gs K with
  | nil =>
      have hg' : Groups K f p front gs := by
        rw [Grove.roots, List.append_nil] at hg
        exact hg
      obtain ⟨fuel₀, hrun⟩ := childrenLoop_of_quiet hg'.holds hg'.children hg'.quiet
      exact ⟨fuel₀, f, gs, fun fuel hfuel k _ depth => hrun fuel hfuel k depth, hg'.passed⟩
  | cons n below next ihb ihn =>
      obtain ⟨hparent, hbelow, hholdsb, hholdsn⟩ := hready.holds
      obtain ⟨hpfront, hnodup⟩ := List.nodup_cons.mp hnodup
      obtain ⟨hfnodup, hrest, hdisj⟩ := List.nodup_append.mp hnodup
      have hapart : Apart f p n below next gs := apart_of_nodup
        (List.nodup_cons.mpr ⟨fun h => hpfront (List.mem_append_right _ h), hrest⟩) hg.lt
      have hnfront : n ∉ front := fun h => hdisj n h n List.mem_cons_self rfl
      have hplace : (f.node p).children[front.length]? = some n := by
        rw [hg.children]
        simp [Grove.roots]
      have hbnodup : (n :: below.nodes).Nodup := hrest.sublist
        (((List.sublist_append_left _ _).cons_cons n).trans (List.sublist_append_left _ _))
      have hnextlt : ∀ m ∈ next.nodes, m < f.count := hready.rest.lt
      by_cases hlproj : IsLproj f n
      · have hcs : ∀ c ∈ (f.node n).children, c ∈ below.nodes := fun c hc =>
          Grove.roots_subset_nodes below (hbelow ▸ hc)
        obtain ⟨fuel₁, f₁, gs₁, lang, hlang, hrun₁, hg₁, hmoved, hempty⟩ :=
          @localizeBranch_of_isLproj _ p n gs front next.roots K hg hlproj
            (hready.roots n List.mem_cons_self hlproj) hparent
            (hready.lt n List.mem_cons_self) hapart.parent.1.symm hapart.node.2.2 hnfront
            (fun h => hapart.node.2.1 (Grove.roots_subset_nodes next h))
            (hbnodup.sublist (hbelow ▸ (Grove.roots_sublist_nodes below).cons_cons n))
            (fun c hc => ⟨hready.inner.lt c (hcs c hc),
              fun h => hapart.parent.2.1 (h ▸ hcs c hc), (hapart.below c (hcs c hc)).2⟩)
            fun c hc => hready.inner.named c (hcs c hc)
        -- The groups are those that were there, the files and groups that are new.
        have hgs₁ : ∀ m, m < f.count → m ∉ gs.nodes → m ∉ below.nodes → m ∉ gs₁.nodes := by
          intro m hm hmg hmb hmem
          rcases hmoved.new m hmem with h | h | h
          · exact hmg h
          · exact hmb (hcs m h)
          · exact hm.not_ge h
        have hframe := hmoved.frame_next hready hapart
        have hnodup₁ : (p :: (front ++ (next.nodes ++ gs₁.nodes))).Nodup := by
          have hnext : next.nodes.Nodup := hrest.sublist (((List.sublist_append_right _ _).trans
            (List.sublist_cons_self n _)).trans (List.sublist_append_left _ _))
          obtain ⟨hpgs₁, hgs₁nodup⟩ := List.nodup_cons.mp hg₁.nodup
          rw [List.nodup_cons, List.nodup_append, List.nodup_append]
          refine ⟨fun h => ?_, hfnodup, ⟨hnext, hgs₁nodup, fun m hm m' hm' h => ?_⟩,
            fun m hm m' hm' h => ?_⟩
          · rcases List.mem_append.mp h with h | h
            · exact hpfront (List.mem_append_left _ h)
            · exact (List.mem_append.mp h).elim hapart.parent.2.2.1 hpgs₁
          · exact hgs₁ m (hnextlt m hm) (hapart.next m hm) (fun h => (hapart.below m h).1 hm)
              (h ▸ hm')
          · have hnotin : ∀ m' ∈ (Grove.cons n below next).nodes ++ gs.nodes, m ≠ m' := hdisj m hm
            rcases List.mem_append.mp hm' with hm' | hm'
            · exact hnotin m' (List.mem_append_left _ (List.mem_cons_of_mem _
                (List.mem_append_right _ hm'))) h
            · exact hgs₁ m (hfront m hm) (fun h => hnotin m (List.mem_append_right _ h) rfl)
                (fun h => hnotin m (List.mem_append_left _ (List.mem_cons_of_mem _
                  (List.mem_append_left _ h))) rfl) (h ▸ hm')
        obtain ⟨fuel₂, f', r, hrun₂, hpassed⟩ := ihn (hready.rest.congr hmoved.changes.le hframe)
          hg₁ hnodup₁ fun m hm => (hfront m hm).trans_le hmoved.changes.le
        refine ⟨max fuel₁ fuel₂ + 2, f', r, fun fuel hfuel k hk depth => ?_,
          hpassed.clear hready hlproj hapart hlang hg₁ hmoved⟩
        obtain ⟨fuel, rfl⟩ : ∃ k, fuel = k + 2 := ⟨fuel - 2, by omega⟩
        have hvisit : donode (localizing k) (fun node depth s =>
            childrenLoop (localizing k) (fuel + 1) node 0 depth s) n depth (f, ()) =
            some (f₁, ()) := by
          rw [donode_localizing, if_pos (List.length_pos_of_ne_nil hlproj.1), hrun₁ k (by omega),
            Option.bind_some]
          exact childrenLoop_end (by rw [hempty]; rfl)
        have hgone : (f₁.node p).children[front.length]? ≠ some n := by
          rw [hg₁.children, List.append_assoc, List.getElem?_append_right (Nat.le_refl _)]
          intro h
          rcases List.mem_append.mp (List.mem_of_getElem? h) with h | h
          · exact hapart.node.2.1 (Grove.roots_subset_nodes next h)
          · exact hgs₁ n (hready.lt n List.mem_cons_self) hapart.node.2.2 hapart.node.1
              (Grove.roots_subset_nodes gs₁ h)
        rw [childrenLoop_gone hplace hvisit hgone]
        exact hrun₂ (fuel + 1) (by omega) k (by omega) depth
      · obtain ⟨fuel₁, f₁, rb, hrun₁, hpassed₁⟩ := exists_visit hready hlproj
          (ihb hready.inner hready.groups (by rwa [Grove.nodes, List.append_nil])
            fun m hm => absurd hm List.not_mem_nil)
        have hframe : ∀ m, m < f.count → m ≠ n → m ∉ below.nodes → f₁.node m = f.node m :=
          fun m hm hmn hmb => hpassed₁.changes.frame m hm (by simp [hmn, hmb, Grove.nodes])
        have hp : f₁.node p = f.node p :=
          hframe p (hg.lt p List.mem_cons_self) hapart.parent.1 hapart.parent.2.1
        have hgkept : ∀ m ∈ p :: gs.nodes, f₁.node m = f.node m := by
          intro m hm
          rcases List.mem_cons.mp hm with rfl | hmg
          · exact hp
          · exact hframe m (hg.lt m hm) (fun h => hapart.node.2.2 (h ▸ hmg))
              fun h => (hapart.below m h).2 hmg
        have hfront' : (front ++ [n]) ++ next.roots = front ++ (Grove.cons n below next).roots := by
          rw [List.append_assoc]
          rfl
        have hnodup₁ : (p :: ((front ++ [n]) ++ (next.nodes ++ gs.nodes))).Nodup := by
          have hsub : (n :: (next.nodes ++ gs.nodes)).Sublist
              ((Grove.cons n below next).nodes ++ gs.nodes) :=
            ((List.sublist_append_right below.nodes next.nodes).append_right gs.nodes).cons_cons n
          rw [List.append_assoc]
          exact (List.nodup_cons.mpr ⟨hpfront, hnodup⟩).sublist
            ((hsub.append_left front).cons_cons p)
        obtain ⟨fuel₂, f', rn, hrun₂, hpassed⟩ := @ihn f₁ p gs (front ++ [n]) K
          (hready.rest.congr hpassed₁.changes.le fun m hm => hframe m (hnextlt m hm)
            (fun h => hapart.node.2.1 (h ▸ hm)) fun h => (hapart.below m h).1 hm)
          (hfront' ▸ hg.congr hpassed₁.changes.le hgkept) hnodup₁
          fun m hm => by
            refine lt_of_lt_of_le ?_ hpassed₁.changes.le
            rcases List.mem_append.mp hm with hm | hm
            · exact hfront m hm
            · exact List.mem_singleton.mp hm ▸ hready.lt n List.mem_cons_self
        refine ⟨max fuel₁ fuel₂ + 1, f', .cons n rb rn, fun fuel hfuel k hk depth => ?_,
          hpassed₁.cons hready hlproj hapart hpassed⟩
        obtain ⟨fuel, rfl⟩ : ∃ k, fuel = k + 1 := ⟨fuel - 1, by omega⟩
        have hrest' := hrun₂ fuel (by omega) k (by omega) depth
        rw [List.length_append, List.length_singleton] at hrest'
        rw [childrenLoop_keep hplace (hrun₁ fuel (by omega) k (by omega) depth)
          (by rw [hp]; exact hplace), hrest']

end Run

section Localizes

variable {f f' : PrjTree} {tr n : ℕ} {t r : Grove ℕ} {as : List ℕ}

/-- The pass returns, and the tree is what it is to be. -/
def Localizes (f : PrjTree) (tr : ℕ) (t : Grove ℕ) : Prop :=
  ∃ fuel₀ f' t', (∀ fuel, fuel₀ ≤ fuel → localize fuel tr f = some f') ∧
    Localized f f' tr t t'

theorem not_movedIn_of_listing (h : Stands f tr t) (hn : (n, as) ∈ t.listing [])
    (has : ∀ a ∈ as, ¬ IsLproj f a) : ¬ MovedIn f t n := by
  rintro ⟨d, hd, hdl, hparent⟩
  rcases h.holds.parent_of_mem_listing hn with ⟨-, -, hp⟩ | ⟨a, as', rfl, -, -, hp⟩
  · obtain rfl := Option.some.inj (hp.symm.trans hparent)
    exact (List.nodup_cons.mp h.nodup).1 hd
  · obtain rfl := Option.some.inj (hp.symm.trans hparent)
    exact has a List.mem_cons_self hdl

theorem exists_listing_of_parent {g : ℕ} (h : Stands f tr t) (hn : n ∈ t.nodes) (hg : g ∈ t.nodes)
    (hparent : (f.node n).parent = some g) :
    ∃ as, (n, g :: as) ∈ t.listing [] ∧ (g, as) ∈ t.listing [] := by
  obtain ⟨bs, hbs⟩ := Grove.exists_mem_listing hn []
  rcases h.holds.parent_of_mem_listing hbs with ⟨-, -, hp⟩ | ⟨a, as, rfl, ha, -, hp⟩
  · obtain rfl := Option.some.inj (hp.symm.trans hparent)
    exact absurd hg (List.nodup_cons.mp h.nodup).1
  · obtain rfl := Option.some.inj (hp.symm.trans hparent)
    exact ⟨as, hbs, ha⟩

/-- A node that is in no directory of a language has its old place. -/
theorem Passed.place (h : Passed f f' tr [] t .nil r) (hf : Stands f tr t) (hf' : Stands f' tr r)
    (hlt : ∀ m ∈ t.nodes, m < f.count) (hn : (n, as) ∈ t.listing [])
    (hlproj : ∀ a ∈ n :: as, ¬ IsLproj f a) :
    (n, as) ∈ r.listing [] ∧ ∀ m ∈ n :: as, (f'.node m).name = (f.node m).name := by
  induction as generalizing n with
  | nil =>
      have hnt := Grove.mem_nodes_of_mem_listing hn
      have hmoved := not_movedIn_of_listing hf hn fun a ha => absurd ha List.not_mem_nil
      obtain ⟨hname, hparent⟩ := h.changes.labels n (hlt n hnt) hmoved
      have hnr := h.outside n hnt (hlproj n List.mem_cons_self) hmoved
      rcases hf.holds.parent_of_mem_listing hn with ⟨-, -, hp⟩ | ⟨a, as, hnil, -⟩
      · obtain ⟨bs, hbs⟩ := Grove.exists_mem_listing hnr []
        rcases hf'.holds.parent_of_mem_listing hbs with ⟨rfl, -⟩ | ⟨b, bs, rfl, hb, -, hpb⟩
        · exact ⟨hbs, fun m hm => List.mem_singleton.mp hm ▸ hname⟩
        · obtain rfl := Option.some.inj (hp.symm.trans (hparent.symm.trans hpb))
          exact absurd (Grove.mem_nodes_of_mem_listing hb) (List.nodup_cons.mp hf'.nodup).1
      · cases hnil
  | cons a as ih =>
      have hnt := Grove.mem_nodes_of_mem_listing hn
      have hmoved := not_movedIn_of_listing hf hn fun b hb =>
        hlproj b (List.mem_cons_of_mem _ hb)
      obtain ⟨hname, hparent⟩ := h.changes.labels n (hlt n hnt) hmoved
      have hnr := h.outside n hnt (hlproj n List.mem_cons_self) hmoved
      rcases hf.holds.parent_of_mem_listing hn with ⟨hnil, -⟩ | ⟨a', as', heq, ha, -, hp⟩
      · cases hnil
      · obtain ⟨rfl, rfl⟩ := List.cons.inj heq
        obtain ⟨har, hnames⟩ := ih ha fun b hb => hlproj b (List.mem_cons_of_mem _ hb)
        obtain ⟨bs, hbs, habs⟩ := exists_listing_of_parent hf' hnr
          (Grove.mem_nodes_of_mem_listing har) (hparent.trans hp)
        obtain rfl := Grove.listing_unique (List.nodup_cons.mp hf'.nodup).2 har habs
        exact ⟨hbs, fun m hm => (List.mem_cons.mp hm).elim (fun h => h ▸ hname) fun hm =>
          hnames m hm⟩

/-- The pass keeps every file of a tidy tree. -/
theorem localizes_of_tidy (h : SourceTree f tr t) (htidy : Tidy f tr t) : Localizes f tr t := by
  have hready : Ready (Unnamed f tr) f tr t := {
    holds := h.stands.holds
    lt := fun m hm => h.lt m (List.mem_cons_of_mem _ hm)
    named := h.named
    roots := fun d hd => htidy tr List.mem_cons_self d (h.stands.children ▸ hd)
    below := fun m hm => htidy m (List.mem_cons_of_mem _ hm)
    keyed := fun m hm => h.keyed m (List.mem_cons_of_mem _ hm) }
  have hg : Groups (Unnamed f tr) f tr ([] ++ t.roots) .nil := {
    children := by rw [h.stands.children, Grove.roots, List.append_nil, List.nil_append]
    holds := trivial
    nodup := List.nodup_singleton tr
    lt := fun m hm => List.mem_singleton.mp hm ▸ h.lt tr List.mem_cons_self
    quiet := fun m hm => absurd hm List.not_mem_nil
    indexed := fun k hk g hg => by
      obtain ⟨hmem, hname⟩ := h.keyed tr List.mem_cons_self k g hg
      exact absurd hname (hk g hmem) }
  have hnodup : (tr :: ([] ++ (t.nodes ++ Grove.nil.nodes))).Nodup := by
    rw [Grove.nodes, List.append_nil]
    exact h.stands.nodup
  obtain ⟨fuel₀, f', r, hrun, hpassed⟩ := childrenLoop_localizing hready hg hnodup
    fun m hm => absurd hm List.not_mem_nil
  have hstands : Stands f' tr r := ⟨hpassed.children, hpassed.holds, hpassed.nodup⟩
  refine ⟨fuel₀, f', r, fun fuel hfuel => ?_, hstands, fun m hm => (hpassed.quiet m hm).not_isLproj,
    ?_, fun m hm => ?_, fun m as hm hleaf has => ?_, fun m below d above hm hleaf hbelow hd => ?_⟩
  · have hloop := hrun fuel hfuel fuel hfuel 0
    rw [List.length_nil] at hloop
    rw [localize, Tree.traverse, if_neg Bool.false_ne_true, dochildren, hloop]
    rfl
  · have hleaves := hpassed.leaves
    rwa [Grove.leaves, List.append_nil] at hleaves
  · rw [hpassed.changes.data m (hready.lt m ((Grove.leaves_sublist_nodes t).subset hm))]
  · refine hpassed.place h.stands hstands hready.lt hm fun a ha => ?_
    rcases List.mem_cons.mp ha with rfl | ha
    · exact fun hl => hl.1 (h.stands.holds.mem_leaves_iff.mp hleaf).2
    · exact has a ha
  · obtain ⟨hdmem, x, hx, hchild⟩ := h.stands.holds.on_the_way hm
    have hdt := Grove.mem_nodes_of_mem_listing hdmem
    have hdir : ∃ q, TidyDir (Unnamed f q) f d := by
      rcases h.stands.holds.parent_of_mem_listing hdmem with ⟨-, hroot, -⟩ | ⟨a, as, -, ha, hda, -⟩
      · exact ⟨tr, htidy tr List.mem_cons_self d (h.stands.children ▸ hroot) hd⟩
      · exact ⟨a, htidy a (List.mem_cons_of_mem _ (Grove.mem_nodes_of_mem_listing ha)) d hda hd⟩
    obtain ⟨q, hdir⟩ := hdir
    -- The directory holds files only, so the file is in no directory between.
    rcases hchild with ⟨-, rfl⟩ | hbranch
    · obtain ⟨hxr, hname, g, hg, hparent, hgname, hkind⟩ := hpassed.moved d hdt hd x hx
      obtain ⟨as, has, -⟩ := exists_listing_of_parent hstands hxr hg hparent
      exact ⟨g, as, has, hkind, hgname, hname⟩
    · exact absurd (hdir.files x hx) hbranch

end Localizes

section Fuel

variable {f f' : PrjTree} {lang : Str} {d i k k' fuel fuel' : ℕ}

theorem movefiles_mono (hle : fuel ≤ fuel') (h : movefiles lang d fuel i f = some f') :
    movefiles lang d fuel' i f = some f' := by
  induction fuel generalizing fuel' i f with
  | zero => cases h
  | succ fuel ih =>
      obtain ⟨fuel', rfl⟩ : ∃ k, fuel' = k + 1 := ⟨fuel' - 1, by omega⟩
      rw [movefiles] at h ⊢
      cases hc : (f.node d).children[i]? with
      | none =>
          rw [hc] at h
          exact h
      | some c =>
          rw [hc] at h
          cases hp : (f.node d).parent with
          | none => simp [hp] at h
          | some p =>
              simp only [hp, Option.bind_eq_bind, Option.bind_some] at h ⊢
              exact ih (by omega) h

theorem localizeBranch_extends (hle : k ≤ k') :
    (localizeBranch k).Extends (localizeBranch k') := by
  intro n depth s s' h
  cases hname : (s.1.node n).name with
  | none => simp [localizeBranch, hname] at h
  | some name =>
      simp only [localizeBranch, hname, Option.bind_eq_bind, Option.bind_some] at h ⊢
      split at h
      · rename_i hext
        obtain ⟨f', hrun, hremove⟩ := Option.bind_eq_some_iff.mp h
        rw [if_pos hext, movefiles_mono hle hrun, Option.bind_some, hremove]
      · rename_i hext
        rw [if_neg hext, h]

theorem localizing_extend (hle : k ≤ k') : (localizing k).Extend (localizing k') :=
  ⟨.refl _, .refl _, localizeBranch_extends hle, .refl _, .refl _⟩

theorem localize_mono {tr : ℕ} (hle : fuel ≤ fuel') (h : localize fuel tr f = some f') :
    localize fuel' tr f = some f' := by
  obtain ⟨s, hrun, rfl⟩ := Option.map_eq_some_iff.mp h
  rw [localize, traverse_extends (localizing_extend hle) hle hrun]
  rfl

end Fuel

def treeOf (files : List String) : PrjTree :=
  let f := Tree.start (some "MyProject".toList) .empty
  (Tree.run .empty 0 f (files.map fun p => .add p.toList)).getD f

def bilingual : PrjTree := treeOf ["English.lproj/MainMenu.xib", "French.lproj/MainMenu.xib"]

def besidePlain : PrjTree := treeOf ["English.lproj/MainMenu.xib", "MainMenu.xib"]

theorem sourceTree_bilingual :
    SourceTree bilingual 0 (.cons 1 (.cons 2 .nil .nil) (.cons 3 (.cons 4 .nil .nil) .nil)) :=
  .of_index ⟨by decide, by decide, by decide⟩ (by decide) (by decide) (by decide)

theorem sourceTree_besidePlain :
    SourceTree besidePlain 0 (.cons 1 (.cons 2 .nil .nil) (.cons 3 .nil .nil)) :=
  .of_index ⟨by decide, by decide, by decide⟩ (by decide) (by decide) (by decide)

theorem localizes_bilingual :
    Localizes bilingual 0 (.cons 1 (.cons 2 .nil .nil) (.cons 3 (.cons 4 .nil .nil) .nil)) :=
  localizes_of_tidy sourceTree_bilingual (by decide)

/-- The file `MainMenu.xib` is taken for the group, and it is no leaf any more. -/
theorem not_localizes_besidePlain :
    SourceTree besidePlain 0 (.cons 1 (.cons 2 .nil .nil) (.cons 3 .nil .nil)) ∧
      ¬ Localizes besidePlain 0 (.cons 1 (.cons 2 .nil .nil) (.cons 3 .nil .nil)) := by
  refine ⟨sourceTree_besidePlain, ?_⟩
  rintro ⟨fuel₀, f', t', hrun, hlocalized⟩
  have hstep : (localize 20 0 besidePlain).map (fun f => (f.node 3).children) = some [2] := by
    decide
  obtain ⟨f₁, hf₁, hchildren⟩ := Option.map_eq_some_iff.mp hstep
  obtain rfl : f' = f₁ := Option.some.inj <| (hrun _ (Nat.le_max_left fuel₀ 20)).symm.trans
    (localize_mono (Nat.le_max_right fuel₀ 20) hf₁)
  have hleaf : 3 ∈ t'.leaves := hlocalized.leaves.mem_iff.mpr (by decide)
  rw [(hlocalized.stands.holds.mem_leaves_iff.mp hleaf).2] at hchildren
  cases hchildren

end Xcode

end Puremake
