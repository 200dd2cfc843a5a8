import Puremake.Tree.Represents
import Puremake.Tree.Stands
import Mathlib.Algebra.Order.BigOperators.Group.Finset

/-!
# Heaps of trees

In a heap of trees the nodes that a node lists have it as their parent, so no node is listed
twice, and a node is one level below its parent, so no node is below itself. Then a finite
tree stands below every node. This is kept by changes that move a node below another one
of the right level, whatever the names of the nodes are.
-/

namespace Puremake

namespace Tree

variable {α : Type*}

/-- The nodes of the heap form trees, and `level` gives their levels. What the node `hole` lists
does not matter. -/
structure Leveled (f : Forest α) (level : ℕ → ℕ) (hole : Option ℕ) : Prop where
  listed : ∀ q, hole ≠ some q → ∀ m ∈ (f.node q).children, (f.node m).parent = some q
  nodup : ∀ q, hole ≠ some q → (f.node q).children.Nodup
  keyed : ∀ q, hole ≠ some q → ∀ k g, (f.node q).index.lookup k = some g →
    (f.node g).parent = some q
  level : ∀ m q, (f.node m).parent = some q → level m = level q + 1
  lt : ∀ m q, (f.node m).parent = some q → m < f.count ∧ q < f.count
  named : ∀ m q, (f.node m).parent = some q → ∃ name, (f.node m).name = some name

section Stands

variable {f : Forest α} {level : ℕ → ℕ} {p : ℕ} {t : Grove ℕ}

def climb (f : Forest α) : ℕ → ℕ → Option ℕ
  | 0, m => some m
  | k + 1, m => (f.node m).parent.bind (climb f k)

/-- From every node of a grove one climbs to the node that the grove is below of. -/
theorem Leveled.climb_of_holds {hole : Option ℕ} (h : Leveled f level hole) (ht : Holds f p t)
    {m : ℕ} (hm : m ∈ t.nodes) : level p < level m ∧ climb f (level m - level p) m = some p := by
  obtain ⟨as, has⟩ := Grove.exists_mem_listing hm []
  induction as generalizing m with
  | nil =>
      rcases ht.parent_of_mem_listing has with ⟨-, -, hp⟩ | ⟨a, as, hnil, -⟩
      · have hlevel := h.level m p hp
        refine ⟨by omega, ?_⟩
        rw [hlevel, Nat.add_sub_cancel_left, climb, hp]
        rfl
      · cases hnil
  | cons a as ih =>
      rcases ht.parent_of_mem_listing has with ⟨hnil, -⟩ | ⟨a', as', heq, ha, -, hp⟩
      · cases hnil
      · obtain ⟨rfl, rfl⟩ := List.cons.inj heq
        have ha' : a ∈ t.nodes := Grove.mem_nodes_of_mem_listing ha
        obtain ⟨hlt, hclimb⟩ := ih ha' ha
        have hlevel := h.level m a hp
        refine ⟨by omega, ?_⟩
        rw [hlevel, Nat.sub_add_comm hlt.le, climb, hp]
        exact hclimb

theorem Leveled.exists_holds (h : Leveled f level none) {q : ℕ}
    (hsub : ∀ c ∈ (f.node q).children, ∃ t, Stands f c t) {cs : List ℕ}
    (hcs : cs.Sublist (f.node q).children) : ∃ t, t.roots = cs ∧ Holds f q t ∧ t.nodes.Nodup ∧
      ∀ m ∈ t.nodes, ∃ r ∈ cs, climb f (level m - (level q + 1)) m = some r := by
  induction cs with
  | nil => exact ⟨.nil, rfl, trivial, List.nodup_nil, fun m hm => absurd hm List.not_mem_nil⟩
  | cons c cs ih =>
      have hc : c ∈ (f.node q).children := hcs.subset List.mem_cons_self
      have hlevel : level c = level q + 1 := h.level c q (h.listed q nofun c hc)
      obtain ⟨below, hbelow⟩ := hsub c hc
      obtain ⟨next, hroots, hnext, hnodup, hclimb⟩ := ih ((List.sublist_cons_self c cs).trans hcs)
      have hccs : c ∉ cs := (List.nodup_cons.mp ((h.nodup q nofun).sublist hcs)).1
      obtain ⟨hcbelow, hbnodup⟩ := List.nodup_cons.mp hbelow.nodup
      have hup : ∀ m ∈ c :: below.nodes, climb f (level m - (level q + 1)) m = some c := by
        intro m hm
        rw [← hlevel]
        rcases List.mem_cons.mp hm with rfl | hm
        · rw [Nat.sub_self]
          rfl
        · exact (h.climb_of_holds hbelow.holds hm).2
      have hdisj : ∀ m ∈ c :: below.nodes, m ∉ next.nodes := by
        intro m hm hmn
        obtain ⟨r, hr, hclimb'⟩ := hclimb m hmn
        obtain rfl := Option.some.inj ((hup m hm).symm.trans hclimb')
        exact hccs hr
      refine ⟨.cons c below next, congrArg (c :: ·) hroots,
        ⟨h.listed q nofun c hc, hbelow.children, hbelow.holds, hnext⟩, ?_, fun m hm => ?_⟩
      · rw [Grove.nodes, ← List.cons_append]
        exact List.nodup_append.mpr ⟨hbelow.nodup, hnodup,
          fun m hm m' hm' h => hdisj m hm (h ▸ hm')⟩
      · rw [Grove.nodes, ← List.cons_append] at hm
        rcases List.mem_append.mp hm with hm | hm
        · exact ⟨c, List.mem_cons_self, hup m hm⟩
        · obtain ⟨r, hr, hclimb'⟩ := hclimb m hm
          exact ⟨r, List.mem_cons_of_mem _ hr, hclimb'⟩

theorem Leveled.exists_stands (h : Leveled f level none) (q : ℕ) : ∃ t, Stands f q t := by
  obtain ⟨bound, hbound⟩ : ∃ bound, ∀ m, m < f.count → level m < bound :=
    ⟨∑ m ∈ Finset.range f.count, level m + 1, fun m hm => Nat.lt_succ_of_le
      (Finset.single_le_sum (f := level) (fun _ _ => Nat.zero_le _) (Finset.mem_range.mpr hm))⟩
  generalize hn : bound - level q = n
  induction n generalizing q with
  | zero =>
      have hnil : (f.node q).children = [] := List.eq_nil_iff_forall_not_mem.mpr fun c hc => by
        have hlt := hbound q (h.lt c q (h.listed q nofun c hc)).2
        omega
      exact ⟨.nil, hnil, trivial, List.nodup_singleton q⟩
  | succ n ih =>
      obtain ⟨t, hroots, hholds, hnodup, -⟩ := h.exists_holds (fun c hc => ih c <| by
        have hlevel := h.level c q (h.listed q nofun c hc)
        omega) (List.Sublist.refl _)
      refine ⟨t, hroots.symm, hholds, List.nodup_cons.mpr ⟨fun hq => ?_, hnodup⟩⟩
      exact (h.climb_of_holds hholds hq).1.false

end Stands

section Build

variable {f f' : Forest α} {level : ℕ → ℕ} {hole : Option ℕ}

theorem leveled_start (name : Option Str) (d : α) :
    Leveled (start name d) (fun _ => 0) none := by
  have hnode : ∀ q, ((start name d).node q).children = [] ∧ ((start name d).node q).index = [] ∧
      ((start name d).node q).parent = none := by
    intro q
    rw [start_node]
    exact ⟨rfl, rfl, rfl⟩
  refine ⟨fun q _ m hm => ?_, fun q _ => ?_, fun q _ k g hk => ?_, fun m q hm => ?_,
    fun m q hm => ?_, fun m q hm => ?_⟩
  · rw [(hnode q).1] at hm
    cases hm
  · rw [(hnode q).1]
    exact List.nodup_nil
  · rw [(hnode q).2.1] at hk
    cases hk
  all_goals
    rw [(hnode m).2.2] at hm
    cases hm

/-- The order of the children, the paths and the data are not what makes a heap of trees. -/
theorem Leveled.congr (h : Leveled f level hole) (hcount : f'.count = f.count)
    (hchildren : ∀ n, (f'.node n).children.Perm (f.node n).children)
    (hparent : ∀ n, (f'.node n).parent = (f.node n).parent)
    (hname : ∀ n, (f.node n).name.isSome → (f'.node n).name.isSome)
    (hindex : ∀ n, (f'.node n).index = (f.node n).index) : Leveled f' level hole where
  listed q hq m hm := by
    rw [hparent]
    exact h.listed q hq m ((hchildren q).mem_iff.mp hm)
  nodup q hq := (hchildren q).nodup_iff.mpr (h.nodup q hq)
  keyed q hq k g hk := by
    rw [hindex] at hk
    rw [hparent]
    exact h.keyed q hq k g hk
  level m q hm := by
    rw [hparent] at hm
    exact h.level m q hm
  lt m q hm := by
    rw [hparent] at hm
    rw [hcount]
    exact h.lt m q hm
  named m q hm := by
    rw [hparent] at hm
    exact Option.isSome_iff_exists.mp (hname m (Option.isSome_iff_exists.mpr (h.named m q hm)))

theorem insert_new_node {i : ℕ} (hi : i < f.count) (name : Option Str) (d : α) :
    ((f.new name d).insert i f.count).node f.count = ⟨name, none, [], [], some i, d⟩ ∧
    (∃ index, ((f.new name d).insert i f.count).node i = { f.node i with
      children := (f.node i).children ++ [f.count], index := index } ∧
      ∀ k g, index.lookup k = some g → g = f.count ∨ (f.node i).index.lookup k = some g) ∧
    ∀ m, m ≠ i → m ≠ f.count → ((f.new name d).insert i f.count).node m = f.node m := by
  refine ⟨?_, ?_, fun m hmi hmc => ?_⟩
  · simp [Forest.insert, Forest.new, Forest.modify, hi.ne']
  · cases name with
    | none =>
        refine ⟨(f.node i).index, ?_, fun k g hk => .inr hk⟩
        simp [Forest.insert, Forest.new, Forest.modify, hi.ne]
    | some name =>
        refine ⟨assign name f.count (f.node i).index, ?_, fun k g hk => ?_⟩
        · simp [Forest.insert, Forest.new, Forest.modify, hi.ne]
        · by_cases hkn : k = name
          · rw [hkn, lookup_assign_self] at hk
            exact .inl (Option.some.inj hk).symm
          · rw [lookup_assign_of_ne hkn] at hk
            exact .inr hk
  · simp [Forest.insert, Forest.new, Forest.modify, hmi, hmc]

theorem insert_fields {g c : ℕ} (hgc : g ≠ c) (m : ℕ) :
    ((f.insert g c).node m).name = (f.node m).name ∧
    (m ≠ c → ((f.insert g c).node m).parent = (f.node m).parent) ∧
    (m ≠ g → ((f.insert g c).node m).children = (f.node m).children) ∧
    ∀ k b, ((f.insert g c).node m).index.lookup k = some b →
      b = c ∧ m = g ∨ (f.node m).index.lookup k = some b := by
  by_cases hmg : m = g
  · subst hmg
    obtain ⟨-, -, -, hparent⟩ := @insert_parent _ f _ _ hgc
    refine ⟨?_, fun _ => hparent, fun h => absurd rfl h, fun k b hk => ?_⟩
    · simp [Forest.insert, Forest.modify, hgc]
    cases hname : (f.node c).name with
    | none =>
        simp only [Forest.insert, Forest.modify, Function.update_of_ne hgc,
          Function.update_self, hname] at hk
        exact .inr hk
    | some name =>
        simp only [Forest.insert, Forest.modify, Function.update_of_ne hgc,
          Function.update_self, hname] at hk
        by_cases hkn : k = name
        · rw [hkn, lookup_assign_self] at hk
          exact .inl ⟨(Option.some.inj hk).symm, rfl⟩
        · rw [lookup_assign_of_ne hkn] at hk
          exact .inr hk
  · by_cases hmc : m = c
    · subst hmc
      obtain ⟨-, hchildren, -, -⟩ := @insert_parent _ f _ _ hgc
      refine ⟨?_, fun h => absurd rfl h, fun _ => hchildren, fun k b hk => .inr ?_⟩
      · simp [Forest.insert, Forest.modify, hgc.symm]
      · simpa [Forest.insert, Forest.modify, hgc.symm] using hk
    · rw [insert_node_of_ne hmg hmc]
      exact ⟨rfl, fun _ => rfl, fun _ => rfl, fun k b hk => .inr hk⟩

/-- A node that no other one lists, but for the one that does not matter, goes below a node of the
level above. -/
theorem Leveled.insert (h : Leveled f level hole) {g c : ℕ} (hg : g < f.count) (hc : c < f.count)
    (hlevel : level c = level g + 1) (hname : (f.node c).name.isSome)
    (hparent : ∀ q, (f.node c).parent = some q → hole = some q) :
    Leveled (f.insert g c) level hole := by
  have hgc : g ≠ c := by
    rintro rfl
    omega
  obtain ⟨hparentc, -, hchildreng, -⟩ := @insert_parent _ f _ _ hgc
  have hfields := @insert_fields _ f _ _ hgc
  have hold : ∀ m q, hole ≠ some q → (f.node m).parent = some q →
      ((f.insert g c).node m).parent = some q := by
    intro m q hq hm
    rw [(hfields m).2.1 fun hmc => hq (hparent q (hmc ▸ hm)), hm]
  have hnew : ∀ m q, ((f.insert g c).node m).parent = some q →
      m = c ∧ q = g ∨ (f.node m).parent = some q := by
    intro m q hm
    by_cases hmc : m = c
    · rw [hmc, hparentc] at hm
      exact .inl ⟨hmc, (Option.some.inj hm).symm⟩
    · rw [(hfields m).2.1 hmc] at hm
      exact .inr hm
  refine ⟨fun q hq m hm => ?_, fun q hq => ?_, fun q hq k b hk => ?_, fun m q hm => ?_,
    fun m q hm => ?_, fun m q hm => ?_⟩
  · by_cases hqg : q = g
    · subst hqg
      rw [hchildreng] at hm
      rcases List.mem_append.mp hm with hm | hm
      · exact hold m q hq (h.listed q hq m hm)
      · rw [List.mem_singleton.mp hm, hparentc]
    · rw [(hfields q).2.2.1 hqg] at hm
      exact hold m q hq (h.listed q hq m hm)
  · by_cases hqg : q = g
    · subst hqg
      rw [hchildreng]
      refine List.nodup_append.mpr ⟨h.nodup q hq, List.nodup_singleton c,
        fun m hm m' hm' heq => hq (hparent q ?_)⟩
      rw [← List.mem_singleton.mp hm', ← heq]
      exact h.listed q hq m hm
    · rw [(hfields q).2.2.1 hqg]
      exact h.nodup q hq
  · rcases (hfields q).2.2.2 k b hk with ⟨rfl, rfl⟩ | hk
    · exact hparentc
    · exact hold b q hq (h.keyed q hq k b hk)
  · rcases hnew m q hm with ⟨rfl, rfl⟩ | hm
    · exact hlevel
    · exact h.level m q hm
  · rcases hnew m q hm with ⟨rfl, rfl⟩ | hm
    · exact ⟨hc, hg⟩
    · exact h.lt m q hm
  · rw [(hfields m).1]
    rcases hnew m q hm with ⟨rfl, rfl⟩ | hm
    · exact Option.isSome_iff_exists.mp hname
    · exact h.named m q hm

theorem Leveled.new (h : Leveled f level hole) (name : Option Str) (d : α) (l : ℕ) :
    Leveled (f.new name d) (Function.update level f.count l) hole := by
  have hnew : (f.new name d).node f.count = ⟨name, none, [], [], none, d⟩ := by
    simp [Forest.new]
  have hparent : ∀ m q, ((f.new name d).node m).parent = some q →
      m ≠ f.count ∧ (f.node m).parent = some q := by
    intro m q hm
    by_cases hmc : m = f.count
    · rw [hmc, hnew] at hm
      cases hm
    · rw [new_node_of_ne hmc] at hm
      exact ⟨hmc, hm⟩
  have hold : ∀ m q, (f.node m).parent = some q → ((f.new name d).node m).parent = some q :=
    fun m q hm => by rw [new_node_of_ne (h.lt m q hm).1.ne, hm]
  refine ⟨fun q hq m hm => ?_, fun q hq => ?_, fun q hq k b hk => ?_, fun m q hm => ?_,
    fun m q hm => ?_, fun m q hm => ?_⟩
  · by_cases hqc : q = f.count
    · rw [hqc, hnew] at hm
      cases hm
    · rw [new_node_of_ne hqc] at hm
      exact hold m q (h.listed q hq m hm)
  · by_cases hqc : q = f.count
    · rw [hqc, hnew]
      exact List.nodup_nil
    · rw [new_node_of_ne hqc]
      exact h.nodup q hq
  · by_cases hqc : q = f.count
    · rw [hqc, hnew] at hk
      cases hk
    · rw [new_node_of_ne hqc] at hk
      exact hold b q (h.keyed q hq k b hk)
  · obtain ⟨hmc, hm⟩ := hparent m q hm
    rw [Function.update_of_ne hmc, Function.update_of_ne (h.lt m q hm).2.ne]
    exact h.level m q hm
  · obtain ⟨-, hm⟩ := hparent m q hm
    exact (h.lt m q hm).imp Nat.lt_succ_of_lt Nat.lt_succ_of_lt
  · obtain ⟨hmc, hm⟩ := hparent m q hm
    rw [new_node_of_ne hmc]
    exact h.named m q hm

theorem Leveled.insert_new (h : Leveled f level hole) {i : ℕ} (hi : i < f.count) (name : Str)
    (d : α) : Leveled ((f.new (some name) d).insert i f.count)
      (Function.update level f.count (level i + 1)) hole := by
  refine (h.new (some name) d (level i + 1)).insert (Nat.lt_succ_of_lt hi) (Nat.lt_succ_self _)
    ?_ ?_ fun q hq => ?_
  · rw [Function.update_self, Function.update_of_ne hi.ne]
  · simp [Forest.new]
  · simp [Forest.new] at hq

theorem Leveled.insertNew (h : Leveled f level hole) {i : ℕ} (hi : i < f.count) (d : α)
    (p : Str) :
    Leveled (f.insertNew d i p) (Function.update level f.count (level i + 1)) hole := by
  have hfields : ∀ n, (f.insertNew d i p).node n =
      { ((f.new (some (Path.getname p)) d).insert i f.count).node n with
        path := ((f.insertNew d i p).node n).path } := by
    intro n
    by_cases hn : n = f.count
    · subst hn
      simp [Forest.insertNew, Forest.modify]
    · simp [Forest.insertNew, Forest.modify, hn]
  refine (h.insert_new hi (Path.getname p) d).congr rfl ?_ ?_ ?_ ?_
  all_goals
    intro n
    rw [hfields n]
  exact id

theorem add_invariant {I : Forest α → Prop} {d : α}
    (hlookup : ∀ f i k c, I f → (f.node i).index.lookup k = some c → c < f.count)
    (hnew : ∀ f i p, I f → i < f.count → I (f.insertNew d i p)) (h : I f) {tr c : ℕ} {p : Str}
    (htr : tr < f.count) (hadd : f.add d tr p = some (f', c)) :
    I f' ∧ c < f'.count ∧ f.count ≤ f'.count := by
  have hp : Path.Relative p := Path.relative_of_along _ _ hadd
  induction p, hp using Path.relative_induction generalizing f' c with
  | dot =>
      rw [Forest.add, Path.along_dot] at hadd
      obtain ⟨rfl, rfl⟩ := Prod.mk.inj (Option.some.inj hadd)
      exact ⟨h, htr, Nat.le_refl _⟩
  | step p hp hne ih =>
      rw [Forest.add, Path.along_of_ne_dot _ _ hp hne] at hadd
      obtain ⟨⟨f₁, i⟩, hrest, hstep⟩ := Option.map_eq_some_iff.mp hadd
      obtain ⟨h₁, hi, hle⟩ := ih hrest
      have hinsert : I (f₁.insertNew d i p) ∧ f₁.count < (f₁.insertNew d i p).count ∧
          f.count ≤ (f₁.insertNew d i p).count :=
        ⟨hnew f₁ i p h₁ hi, Nat.lt_succ_self _, Nat.le_succ_of_le hle⟩
      rw [Forest.extend] at hstep
      split at hstep
      · obtain ⟨rfl, rfl⟩ := Prod.mk.inj hstep
        exact ⟨h₁, hi, hle⟩
      split at hstep
      · rename_i child hchild
        split at hstep
        · obtain ⟨rfl, rfl⟩ := Prod.mk.inj hstep
          exact ⟨h₁, hlookup f₁ i _ child h₁ hchild, hle⟩
        · obtain ⟨rfl, rfl⟩ := Prod.mk.inj hstep
          exact hinsert
      · obtain ⟨rfl, rfl⟩ := Prod.mk.inj hstep
        exact hinsert

end Build

section Emptying

variable {f f' : Forest α} {level : ℕ → ℕ} {d p c g : ℕ} {rest : List ℕ}

/-- The children of `d`, which is below `p`, are being moved: `rest` are still to be moved. -/
structure Emptying (f : Forest α) (level : ℕ → ℕ) (d p : ℕ) (rest : List ℕ) : Prop where
  leveled : Leveled f level (some d)
  parent : (f.node d).parent = some p
  nodup : rest.Nodup
  rest : ∀ c ∈ rest, (f.node c).parent = some d

theorem Leveled.emptying (h : Leveled f level none) (hparent : (f.node d).parent = some p) :
    Emptying f level d p (f.node d).children where
  leveled := ⟨fun q _ => h.listed q nofun, fun q _ => h.nodup q nofun, fun q _ => h.keyed q nofun,
    h.level, h.lt, h.named⟩
  parent := hparent
  nodup := h.nodup d nofun
  rest := h.listed d nofun

theorem Emptying.ne (h : Emptying f level d p rest) : d ≠ p := by
  rintro rfl
  have hlevel := h.leveled.level d d h.parent
  omega

theorem Emptying.insert_new (h : Emptying f level d p rest) (name : Str) (a : α) :
    Emptying ((f.new (some name) a).insert p f.count)
      (Function.update level f.count (level p + 1)) d p rest := by
  have hp : p < f.count := (h.leveled.lt d p h.parent).2
  obtain ⟨-, ⟨index, hnode, -⟩, hframe⟩ := insert_new_node hp (some name) a
  have hparent : ∀ m q, (f.node m).parent = some q →
      (((f.new (some name) a).insert p f.count).node m).parent = some q := by
    intro m q hm
    by_cases hmp : m = p
    · rw [hmp, hnode]
      exact hmp ▸ hm
    · rw [hframe m hmp (h.leveled.lt m q hm).1.ne, hm]
  exact ⟨h.leveled.insert_new hp name a, hparent d p h.parent, h.nodup,
    fun m hm => hparent m d (h.rest m hm)⟩

/-- The first child goes below a node beside `d`, or below `d` itself, at the end. -/
theorem Emptying.insert (h : Emptying f level d p (c :: rest)) (hg : (f.node g).parent = some p) :
    Emptying (f.insert g c) level d p (if g = d then rest ++ [c] else rest) := by
  have hc : (f.node c).parent = some d := h.rest c List.mem_cons_self
  have hlevelc := h.leveled.level c d hc
  have hleveld := h.leveled.level d p h.parent
  have hlevelg := h.leveled.level g p hg
  have hgc : g ≠ c := fun heq => by
    rw [heq] at hlevelg
    omega
  have hdc : d ≠ c := fun heq => by
    rw [← heq] at hlevelc
    omega
  have hparentc := (@insert_parent _ f _ _ hgc).1
  have hparent : ∀ m, m ≠ c → ((f.insert g c).node m).parent = (f.node m).parent :=
    fun m => (insert_fields hgc m).2.1
  obtain ⟨hcrest, hrest⟩ := List.nodup_cons.mp h.nodup
  have hrestd : ∀ m ∈ rest, ((f.insert g c).node m).parent = some d := fun m hm => by
    rw [hparent m fun hmc => hcrest (hmc ▸ hm)]
    exact h.rest m (List.mem_cons_of_mem _ hm)
  refine ⟨h.leveled.insert (h.leveled.lt g p hg).1 (h.leveled.lt c d hc).1 (by omega)
    (Option.isSome_iff_exists.mpr (h.leveled.named c d hc)) fun q hq => hc.symm.trans hq, ?_, ?_,
    fun m hm => ?_⟩
  · rw [hparent d hdc, h.parent]
  · split
    · exact List.nodup_append.mpr ⟨hrest, List.nodup_singleton c, fun m hm m' hm' heq =>
        hcrest (List.mem_singleton.mp hm' ▸ heq ▸ hm)⟩
    · exact hrest
  · split at hm
    · rename_i hgd
      rcases List.mem_append.mp hm with hm | hm
      · exact hrestd m hm
      · rw [List.mem_singleton.mp hm, hparentc, hgd]
    · exact hrestd m hm

/-- The paths, the data and the names that nodes get do not matter. -/
theorem Emptying.congr (h : Emptying f level d p rest) (hcount : f'.count = f.count)
    (hnode : ∀ n, (f'.node n).children = (f.node n).children ∧
      (f'.node n).parent = (f.node n).parent ∧ (f'.node n).index = (f.node n).index ∧
      ((f.node n).name.isSome → (f'.node n).name.isSome)) : Emptying f' level d p rest where
  leveled := h.leveled.congr hcount (fun n => .of_eq (hnode n).1) (fun n => (hnode n).2.1)
    (fun n => (hnode n).2.2.2) fun n => (hnode n).2.2.1
  parent := (hnode d).2.1.trans h.parent
  nodup := h.nodup
  rest c hc := (hnode c).2.1.trans (h.rest c hc)

theorem removeLoop_sublist (n : ℕ) (l : List ℕ) : (Forest.removeLoop n l).Sublist l := by
  fun_induction Forest.removeLoop n l with
  | case1 => exact List.Sublist.refl _
  | case2 => exact List.nil_sublist _
  | case3 c cs ih => exact (ih.cons_cons c).cons n
  | case4 c cs hc ih => exact ih.cons_cons c

/-- When `d` has been taken out, the nodes are a heap of trees again. -/
theorem Emptying.remove (h : Emptying f level d p rest) (hf : f.remove d = some f') :
    Leveled f' level none := by
  have hdp := h.ne
  rw [Forest.remove, h.parent, Option.map_some] at hf
  obtain rfl := Option.some.inj hf
  generalize hf' : (f.modify p fun n =>
    { n with children := Forest.removeLoop d n.children }).modify
      d (fun n => { n with children := [], index := [] }) = f'
  have hcount : f'.count = f.count := by
    rw [← hf']
    rfl
  have hlabels : ∀ m, (f'.node m).parent = (f.node m).parent ∧
      (f'.node m).name = (f.node m).name := by
    intro m
    by_cases hmd : m = d
    · simp [← hf', Forest.modify, hmd, hdp]
    · by_cases hmp : m = p
      · simp [← hf', Forest.modify, hmp, hdp.symm]
      · simp [← hf', Forest.modify, hmd, hmp]
  have hdnode : (f'.node d).children = [] ∧ (f'.node d).index = [] := by
    simp [← hf', Forest.modify]
  have hlists : ∀ q, q ≠ d → (f'.node q).children.Sublist (f.node q).children ∧
      (f'.node q).index = (f.node q).index := by
    intro q hqd
    by_cases hqp : q = p
    · subst hqp
      simp [← hf', Forest.modify, hqd, removeLoop_sublist]
    · simp [← hf', Forest.modify, hqd, hqp]
  refine ⟨fun q _ m hm => ?_, fun q _ => ?_, fun q _ k g hk => ?_, fun m q hm => ?_,
    fun m q hm => ?_, fun m q hm => ?_⟩
  · by_cases hqd : q = d
    · rw [hqd, hdnode.1] at hm
      cases hm
    · rw [(hlabels m).1]
      exact h.leveled.listed q (fun heq => hqd (Option.some.inj heq).symm) m
        ((hlists q hqd).1.subset hm)
  · by_cases hqd : q = d
    · rw [hqd, hdnode.1]
      exact List.nodup_nil
    · exact (h.leveled.nodup q fun heq => hqd (Option.some.inj heq).symm).sublist (hlists q hqd).1
  · by_cases hqd : q = d
    · rw [hqd, hdnode.2] at hk
      cases hk
    · rw [(hlists q hqd).2] at hk
      rw [(hlabels g).1]
      exact h.leveled.keyed q (fun heq => hqd (Option.some.inj heq).symm) k g hk
  · rw [(hlabels m).1] at hm
    exact h.leveled.level m q hm
  · rw [(hlabels m).1] at hm
    rw [hcount]
    exact h.leveled.lt m q hm
  · rw [(hlabels m).1] at hm
    rw [(hlabels m).2]
    exact h.leveled.named m q hm

end Emptying

end Tree

end Puremake
