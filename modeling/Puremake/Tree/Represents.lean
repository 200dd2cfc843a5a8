import Puremake.Tree.Basic

/-!
# What a source tree represents

`locate` follows the index of a tree like `tree.add` and makes no node. A tree
represents its paths when each key of an index stands for a listed node with that
name, and each node has its own path. Adding a path keeps this as long as no name on
the way stands for a node with another path; then the node that an addition has
returned is found again ever after.
-/

namespace Puremake

namespace Tree

variable {α : Type*}

namespace Forest

/-- One step of `locate`. -/
def follow (f : Forest α) (i : Option ℕ) (p : Str) : Option ℕ :=
  if Path.getname p = dotdot then i
  else i.bind fun i => ((f.node i).index.lookup (Path.getname p)).filter
    fun c => (f.node c).path = some p

/-- The node that `tree.add` finds for a path. -/
def locate (f : Forest α) (tr : ℕ) (p : Str) : Option ℕ :=
  (Path.along (some tr) f.follow p).join

/-- What a tree with the root `tr` is to be: the keys of an index stand for the
listed nodes with these names, and no two nodes have the same path. -/
structure Represents (f : Forest α) (tr : ℕ) : Prop where
  keyed : ∀ i, Reachable f tr i → ∀ k c, (f.node i).index.lookup k = some c →
    c ∈ (f.node i).children ∧ (f.node c).name = some k
  distinct : ∀ i j, Reachable f tr i → Reachable f tr j →
    (f.node i).path = (f.node j).path → i = j

end Forest

/-- The path of the node that stands for a path: `..` at the end stands for the node of the
directory, and `.` for the root, which has no path. -/
def written (p : Str) : Option Str :=
  (Path.along none (fun w q => if Path.getname q = dotdot then w else some q) p).join

/-- A path and those of its directories that `tree.add` comes by. -/
def onTheWay (p : Str) : List Str := (Path.along [] (fun qs q => q :: qs) p).getD []

theorem onTheWay_dot : onTheWay dot = [] := by simp [onTheWay]

theorem onTheWay_of_ne_dot {p : Str} (hp : Path.Relative p) (hne : p ≠ dot) :
    onTheWay p = p :: onTheWay (Path.getdirectory p) := by
  obtain ⟨qs, hqs⟩ := Path.exists_along [] (fun qs q => q :: qs)
    (Path.getdirectory_of_relative hp).1
  rw [onTheWay, onTheWay, Path.along_of_ne_dot _ _ hp hne, hqs]
  rfl

theorem mem_onTheWay_self {p : Str} (hp : Path.Relative p) (hne : p ≠ dot) :
    p ∈ onTheWay p := by
  rw [onTheWay_of_ne_dot hp hne]
  exact List.mem_cons_self

/-- On the way there are relative paths other than `.`, and their directories as well. -/
theorem of_mem_onTheWay {p q : Str} (hp : Path.Relative p) (hq : q ∈ onTheWay p) :
    Path.Relative q ∧ q ≠ dot ∧ ∀ r ∈ onTheWay q, r ∈ onTheWay p := by
  induction p, hp using Path.relative_induction with
  | dot =>
      rw [onTheWay_dot] at hq
      cases hq
  | step p hp hne ih =>
      rw [onTheWay_of_ne_dot hp hne] at hq
      rcases List.mem_cons.mp hq with rfl | hq
      · exact ⟨hp, hne, fun _ hr => hr⟩
      · obtain ⟨hrel, hqne, hsub⟩ := ih hq
        refine ⟨hrel, hqne, fun r hr => ?_⟩
        rw [onTheWay_of_ne_dot hp hne]
        exact List.mem_cons_of_mem _ (hsub r hr)

theorem written_of_ne_dot {p : Str} (hp : Path.Relative p) (hne : p ≠ dot) :
    written p =
      if Path.getname p = dotdot then written (Path.getdirectory p) else some p := by
  obtain ⟨w, hw⟩ := Path.exists_along none
    (fun w q => if Path.getname q = dotdot then w else some q)
    (Path.getdirectory_of_relative hp).1
  rw [written, written, Path.along_of_ne_dot _ _ hp hne, hw]
  rfl

/-- The path of a node is the one that was added, unless this is `.` or ends in `..`. -/
theorem written_eq {p : Str} (hp : Path.Relative p) (hne : p ≠ dot)
    (hname : Path.getname p ≠ dotdot) : written p = some p := by
  rw [written_of_ne_dot hp hne, if_neg hname]

inductive Op
  | add (p : Str)
  | remove (node : ℕ)
  deriving DecidableEq, Repr

def Op.apply (d : α) (tr : ℕ) (f : Forest α) : Op → Option (Forest α)
  | .add p => (f.add d tr p).map Prod.fst
  | .remove node => f.remove node

def run (d : α) (tr : ℕ) (f : Forest α) (ops : List Op) : Option (Forest α) :=
  ops.foldlM (Op.apply d tr) f

def start (name : Option Str) (d : α) : Forest α :=
  Forest.new ⟨fun _ => ⟨none, none, [], [], none, d⟩, 0⟩ name d

/-- A call on a tree that goes no wrong way: where an addition comes by a name that is in the
index, it stands for the path that is looked for, and no node is removed that is
listed, so that a removal has no effect. -/
def Op.Regular (f : Forest α) (tr : ℕ) : Op → Prop
  | .add p => Path.Relative p ∧ ∀ q ∈ onTheWay p, Path.getname q ≠ dotdot →
      ∀ i, f.locate tr (Path.getdirectory q) = some i →
        ∀ c, (f.node i).index.lookup (Path.getname q) = some c → (f.node c).path = some q
  | .remove node => ∃ i, (f.node node).parent = some i ∧ node ∉ (f.node i).children

instance (f : Forest α) (tr : ℕ) : (op : Op) → Decidable (op.Regular f tr)
  | .add p => inferInstanceAs (Decidable (Path.Relative p ∧ ∀ q ∈ onTheWay p,
      Path.getname q ≠ dotdot → ∀ i ∈ f.locate tr (Path.getdirectory q),
        ∀ c ∈ (f.node i).index.lookup (Path.getname q), (f.node c).path = some q))
  | .remove node => inferInstanceAs (Decidable (∃ i ∈ (f.node node).parent,
      node ∉ (f.node i).children))

/-- Every call of a sequence is regular where it is made. -/
def RegularRun (d : α) (tr : ℕ) : Forest α → List Op → Prop
  | _, [] => True
  | f, op :: ops => op.Regular f tr ∧ ∀ f', op.apply d tr f = some f' → RegularRun d tr f' ops

instance decidableRegularRun (d : α) (tr : ℕ) :
    (f : Forest α) → (ops : List Op) → Decidable (RegularRun d tr f ops)
  | _, [] => inferInstanceAs (Decidable True)
  | f, op :: ops =>
    have : DecidablePred fun f' => RegularRun d tr f' ops := fun f' =>
      decidableRegularRun d tr f' ops
    inferInstanceAs (Decidable (op.Regular f tr ∧ ∀ f' ∈ op.apply d tr f,
      RegularRun d tr f' ops))

section Insert

variable (d : α) {f : Forest α} {i : ℕ} (hi : i < f.count) (p : Str)

include hi

theorem insertNew_node_new : (f.insertNew d i p).node f.count =
    ⟨some (Path.getname p), some p, [], [], some i, d⟩ := by
  have hne : f.count ≠ i := Nat.ne_of_gt hi
  simp [Forest.insertNew, Forest.insert, Forest.modify, Forest.new, Function.update_of_ne hne]

theorem insertNew_node_parent : (f.insertNew d i p).node i =
    { f.node i with
      children := (f.node i).children ++ [f.count]
      index := assign (Path.getname p) f.count (f.node i).index } := by
  have hne : i ≠ f.count := Nat.ne_of_lt hi
  simp [Forest.insertNew, Forest.insert, Forest.modify, Forest.new, Function.update_of_ne hne]

omit hi in
theorem insertNew_node_of_ne {j : ℕ} (hj : j ≠ f.count) (hji : j ≠ i) :
    (f.insertNew d i p).node j = f.node j := by
  simp [Forest.insertNew, Forest.insert, Forest.modify, Forest.new, Function.update_of_ne hj,
    Function.update_of_ne hji]

/-- An insertion below a node leaves the other things that nodes have as they are. -/
theorem insertNew_path {j : ℕ} (hj : j ≠ f.count) :
    ((f.insertNew d i p).node j).path = (f.node j).path ∧
      ((f.insertNew d i p).node j).name = (f.node j).name ∧
      ((f.insertNew d i p).node j).parent = (f.node j).parent ∧
      ((f.insertNew d i p).node j).data = (f.node j).data := by
  by_cases hji : j = i
  · rw [hji, insertNew_node_parent d hi p]
    exact ⟨rfl, rfl, rfl, rfl⟩
  · rw [insertNew_node_of_ne d p hj hji]
    exact ⟨rfl, rfl, rfl, rfl⟩

theorem mem_insertNew_children {j c : ℕ} (hj : j ≠ f.count) :
    c ∈ ((f.insertNew d i p).node j).children ↔
      c ∈ (f.node j).children ∨ (j = i ∧ c = f.count) := by
  by_cases hji : j = i
  · rw [hji, insertNew_node_parent d hi p]
    simp
  · rw [insertNew_node_of_ne d p hj hji]
    simp [hji]

theorem insertNew_lookup {j : ℕ} (hj : j ≠ f.count) (k : Str) :
    ((f.insertNew d i p).node j).index.lookup k =
      if j = i ∧ k = Path.getname p then some f.count else (f.node j).index.lookup k := by
  by_cases hji : j = i
  · rw [hji, insertNew_node_parent d hi p]
    by_cases hk : k = Path.getname p
    · rw [if_pos ⟨rfl, hk⟩, hk]
      exact lookup_assign_self _ _ _
    · rw [if_neg fun h => hk h.2]
      exact lookup_assign_of_ne hk _ _
  · rw [insertNew_node_of_ne d p hj hji, if_neg fun h => hji h.1]

end Insert

section Locate

variable {f : Forest α} {tr : ℕ}

@[simp] theorem locate_dot : f.locate tr dot = some tr := by
  simp [Forest.locate]

theorem locate_of_ne_dot {p : Str} (hp : Path.Relative p) (hne : p ≠ dot) :
    f.locate tr p = f.follow (f.locate tr (Path.getdirectory p)) p := by
  obtain ⟨i, hi⟩ := Path.exists_along (some tr) f.follow (Path.getdirectory_of_relative hp).1
  rw [Forest.locate, Forest.locate, Path.along_of_ne_dot _ _ hp hne, hi]
  rfl

theorem locate_eq_some_iff {p : Str} (hp : Path.Relative p) (hne : p ≠ dot)
    (hname : Path.getname p ≠ dotdot) {c : ℕ} :
    f.locate tr p = some c ↔
      ∃ i, f.locate tr (Path.getdirectory p) = some i ∧
        (f.node i).index.lookup (Path.getname p) = some c ∧ (f.node c).path = some p := by
  rw [locate_of_ne_dot hp hne, Forest.follow, if_neg hname, Option.bind_eq_some_iff]
  simp only [Option.filter_eq_some_iff, decide_eq_true_eq]

theorem locate_of_dotdot {p : Str} (hp : Path.Relative p) (hne : p ≠ dot)
    (hname : Path.getname p = dotdot) :
    f.locate tr p = f.locate tr (Path.getdirectory p) := by
  rw [locate_of_ne_dot hp hne, Forest.follow, if_pos hname]

theorem path_of_locate (hroot : (f.node tr).path = none) {p : Str} (hp : Path.Relative p)
    {c : ℕ} (h : f.locate tr p = some c) : (f.node c).path = written p := by
  induction p, hp using Path.relative_induction with
  | dot =>
      obtain rfl : tr = c := by simpa using h
      rw [hroot]
      simp [written]
  | step p hp hne ih =>
      rw [written_of_ne_dot hp hne]
      split
      · rw [locate_of_dotdot hp hne ‹_›] at h
        exact ih h
      · obtain ⟨-, -, -, hpath⟩ := (locate_eq_some_iff hp hne ‹_›).mp h
        exact hpath

end Locate

/-- What regular calls keep: every key stands for a listed node with that name, every
node below the root is found by its path, and nothing is known of nodes that have
not been made. -/
structure Invariant (f : Forest α) : Prop where
  root : (f.node 0).path = none
  count_pos : 0 < f.count
  listed : ∀ i c, c ∈ (f.node i).children →
    i < f.count ∧ c < f.count ∧ (f.node c).parent = some i ∧
      ∃ q, Path.Relative q ∧ f.locate 0 q = some c ∧ (f.node c).path = some q
  keyed : ∀ i k c, (f.node i).index.lookup k = some c →
    c ∈ (f.node i).children ∧ (f.node c).name = some k
  parent : ∀ c i, (f.node c).parent = some i → c ∈ (f.node i).children

namespace Invariant

variable {f : Forest α} (hf : Invariant f)

include hf

theorem lt_count {i : ℕ} (hi : f.Reachable 0 i) : i < f.count := by
  cases hi with
  | root => exact hf.count_pos
  | child _ hc => exact (hf.listed _ _ hc).2.1

theorem reachable_of_locate {p : Str} (hp : Path.Relative p) {c : ℕ}
    (h : f.locate 0 p = some c) : f.Reachable 0 c := by
  induction p, hp using Path.relative_induction generalizing c with
  | dot =>
      obtain rfl : 0 = c := by simpa using h
      exact .root
  | step p hp hne ih =>
      by_cases hname : Path.getname p = dotdot
      · rw [locate_of_dotdot hp hne hname] at h
        exact ih h
      · obtain ⟨i, hi, hkey, -⟩ := (locate_eq_some_iff hp hne hname).mp h
        exact .child (ih hi) (hf.keyed i _ c hkey).1

theorem represents : f.Represents 0 where
  keyed i _ k c h := hf.keyed i k c h
  distinct i j hi hj h := by
    cases hi with
    | root =>
        cases hj with
        | root => rfl
        | child _ hj =>
            obtain ⟨-, -, -, q, -, -, hpath⟩ := hf.listed _ _ hj
            rw [hf.root, hpath] at h
            cases h
    | child _ hi =>
        obtain ⟨-, -, -, q, -, hq, hpath⟩ := hf.listed _ _ hi
        cases hj with
        | root =>
            rw [hf.root, hpath] at h
            cases h
        | child _ hj =>
            obtain ⟨-, -, -, q', -, hq', hpath'⟩ := hf.listed _ _ hj
            obtain rfl : q = q' := by
              rw [hpath, hpath'] at h
              exact Option.some.inj h
            exact Option.some.inj (hq.symm.trans hq')

end Invariant

/-- The paths that are found in a forest are found in another one, where they stand for the
same nodes. -/
def Keeps (f f' : Forest α) : Prop :=
  ∀ q, Path.Relative q → ∀ c, f.locate 0 q = some c → f'.locate 0 q = some c

/-- A new node under a new name does not get in the way of the others. -/
theorem Invariant.keeps_insertNew {f : Forest α} (hf : Invariant f) (d : α) {i : ℕ}
    (hi : i < f.count) {p : Str} (hnew : (f.node i).index.lookup (Path.getname p) = none) :
    Keeps f (f.insertNew d i p) := by
  intro q hq c h
  induction q, hq using Path.relative_induction generalizing c with
  | dot => simpa using h
  | step q hq hne ih =>
      by_cases hname : Path.getname q = dotdot
      · rw [locate_of_dotdot hq hne hname] at h ⊢
        exact ih c h
      · rw [locate_eq_some_iff hq hne hname] at h ⊢
        obtain ⟨j, hj, hkey, hpath⟩ := h
        obtain ⟨hjlt, hclt, -⟩ := hf.listed j c (hf.keyed j _ c hkey).1
        refine ⟨j, ih j hj, ?_, ?_⟩
        · rw [insertNew_lookup d hi p (Nat.ne_of_lt hjlt), if_neg, hkey]
          rintro ⟨rfl, hk⟩
          rw [hk, hnew] at hkey
          cases hkey
        · rw [(insertNew_path d hi p (Nat.ne_of_lt hclt)).1]
          exact hpath

/-- A new node under a new name keeps the invariant, and its path is found. -/
theorem Invariant.insertNew {f : Forest α} (hf : Invariant f) (d : α) {i : ℕ} {p : Str}
    (hp : Path.Relative p) (hne : p ≠ dot) (hname : Path.getname p ≠ dotdot)
    (hi : f.locate 0 (Path.getdirectory p) = some i)
    (hnew : (f.node i).index.lookup (Path.getname p) = none) :
    Invariant (f.insertNew d i p) ∧ (f.insertNew d i p).locate 0 p = some f.count := by
  have hilt : i < f.count :=
    hf.lt_count (hf.reachable_of_locate (Path.getdirectory_of_relative hp).1 hi)
  have hkeeps : Keeps f (f.insertNew d i p) := hf.keeps_insertNew d hilt hnew
  have hcount : (f.insertNew d i p).count = f.count + 1 := rfl
  have hlocate : (f.insertNew d i p).locate 0 p = some f.count := by
    rw [locate_eq_some_iff hp hne hname]
    refine ⟨i, hkeeps _ (Path.getdirectory_of_relative hp).1 _ hi, ?_, ?_⟩
    · rw [insertNew_lookup d hilt p (Nat.ne_of_lt hilt), if_pos ⟨rfl, rfl⟩]
    · rw [insertNew_node_new d hilt p]
  refine ⟨⟨?_, ?_, ?_, ?_, ?_⟩, hlocate⟩
  · rw [(insertNew_path d hilt p (Nat.ne_of_lt hf.count_pos)).1]
    exact hf.root
  · rw [hcount]
    exact Nat.succ_pos _
  · intro j c hc
    by_cases hj : j = f.count
    · rw [hj, insertNew_node_new d hilt p] at hc
      cases hc
    · rcases (mem_insertNew_children d hilt p hj).mp hc with hc | ⟨rfl, rfl⟩
      · obtain ⟨hjlt, hclt, hparent, q, hq, hloc, hpath⟩ := hf.listed j c hc
        obtain ⟨hpath', -, hparent', -⟩ := insertNew_path d hilt p (Nat.ne_of_lt hclt)
        exact ⟨Nat.lt_succ_of_lt hjlt, Nat.lt_succ_of_lt hclt, hparent'.trans hparent,
          q, hq, hkeeps q hq c hloc, hpath'.trans hpath⟩
      · refine ⟨Nat.lt_succ_of_lt hilt, Nat.lt_succ_self _, ?_, p, hp, hlocate, ?_⟩
        · rw [insertNew_node_new d hilt p]
        · rw [insertNew_node_new d hilt p]
  · intro j k c hkey
    by_cases hj : j = f.count
    · rw [hj, insertNew_node_new d hilt p] at hkey
      cases hkey
    · rw [mem_insertNew_children d hilt p hj]
      rw [insertNew_lookup d hilt p hj] at hkey
      by_cases hjk : j = i ∧ k = Path.getname p
      · rw [if_pos hjk] at hkey
        obtain rfl : f.count = c := Option.some.inj hkey
        refine ⟨.inr ⟨hjk.1, rfl⟩, ?_⟩
        rw [insertNew_node_new d hilt p, hjk.2]
      · rw [if_neg hjk] at hkey
        obtain ⟨hc, hcname⟩ := hf.keyed j k c hkey
        have hclt : c < f.count := (hf.listed j c hc).2.1
        exact ⟨.inl hc, (insertNew_path d hilt p (Nat.ne_of_lt hclt)).2.1.trans hcname⟩
  · intro c j hparent
    by_cases hc : c = f.count
    · rw [hc, insertNew_node_new d hilt p] at hparent
      obtain rfl : i = j := Option.some.inj hparent
      rw [mem_insertNew_children d hilt p (Nat.ne_of_lt hilt)]
      exact .inr ⟨rfl, hc⟩
    · rw [(insertNew_path d hilt p hc).2.2.1] at hparent
      have hmem : c ∈ (f.node j).children := hf.parent c j hparent
      rw [mem_insertNew_children d hilt p (Nat.ne_of_lt (hf.listed j c hmem).1)]
      exact .inl hmem

section Add

variable (d : α) {f : Forest α}

theorem add_dot (tr : ℕ) : f.add d tr dot = some (f, tr) := by
  simp [Forest.add]

theorem add_of_ne_dot (tr : ℕ) {p : Str} (hp : Path.Relative p) (hne : p ≠ dot) :
    f.add d tr p = (f.add d tr (Path.getdirectory p)).map fun s => Forest.extend d s p :=
  Path.along_of_ne_dot _ _ hp hne

theorem add_of_locate {tr : ℕ} {p : Str} (hp : Path.Relative p) {c : ℕ}
    (h : f.locate tr p = some c) : f.add d tr p = some (f, c) := by
  induction p, hp using Path.relative_induction generalizing c with
  | dot =>
      obtain rfl : tr = c := by simpa using h
      exact add_dot d tr
  | step p hp hne ih =>
      rw [add_of_ne_dot d tr hp hne]
      by_cases hname : Path.getname p = dotdot
      · rw [locate_of_dotdot hp hne hname] at h
        rw [ih h, Option.map_some, Forest.extend, if_pos hname]
      · obtain ⟨i, hi, hkey, hpath⟩ := (locate_eq_some_iff hp hne hname).mp h
        rw [ih hi, Option.map_some, Forest.extend, if_neg hname]
        simp only [hkey, hpath, if_true]

theorem Op.Regular.getdirectory {tr : ℕ} {p : Str} (h : Op.Regular f tr (.add p))
    (hne : p ≠ dot) : Op.Regular f tr (.add (Path.getdirectory p)) := by
  obtain ⟨hp, hway⟩ := h
  refine ⟨(Path.getdirectory_of_relative hp).1, fun q hq => hway q ?_⟩
  rw [onTheWay_of_ne_dot hp hne]
  exact List.mem_cons_of_mem _ hq

/-- An addition that goes no wrong way returns the node that stands for the path. When
something was added, this node is new. -/
theorem Invariant.add (hf : Invariant f) {p : Str} (hreg : Op.Regular f 0 (.add p)) :
    ∃ f' c, f.add d 0 p = some (f', c) ∧ Invariant f' ∧ Keeps f f' ∧
      f'.locate 0 p = some c ∧ (f' = f ∨ (f'.node c).index = []) := by
  obtain ⟨hp, -⟩ := id hreg
  induction p, hp using Path.relative_induction with
  | dot => exact ⟨f, 0, add_dot d 0, hf, fun _ _ _ h => h, locate_dot, .inl rfl⟩
  | step p hp hne ih =>
      obtain ⟨f', i, hadd, hf', hkeeps, hi, hnew⟩ := ih (hreg.getdirectory hne)
      rw [add_of_ne_dot d 0 hp hne, hadd, Option.map_some]
      by_cases hname : Path.getname p = dotdot
      · refine ⟨f', i, by rw [Forest.extend, if_pos hname], hf', hkeeps, ?_, hnew⟩
        rw [locate_of_dotdot hp hne hname]
        exact hi
      · rw [Forest.extend, if_neg hname]
        cases hkey : (f'.node i).index.lookup (Path.getname p) with
        | some c =>
            -- a node has been there before, and then it has been there from the start
            obtain rfl : f' = f := by
              refine hnew.resolve_right fun h => ?_
              rw [h] at hkey
              cases hkey
            have hpath : (f'.node c).path = some p :=
              hreg.2 p (mem_onTheWay_self hp hne) hname i hi c hkey
            refine ⟨f', c, by simp only [hpath, if_true], hf', hkeeps, ?_, .inl rfl⟩
            exact (locate_eq_some_iff hp hne hname).mpr ⟨i, hi, hkey, hpath⟩
        | none =>
            obtain ⟨hinv, hlocate⟩ := hf'.insertNew d hp hne hname hi hkey
            have hilt : i < f'.count :=
              hf'.lt_count (hf'.reachable_of_locate (Path.getdirectory_of_relative hp).1 hi)
            refine ⟨f'.insertNew d i p, f'.count, rfl, hinv, ?_, hlocate, .inr ?_⟩
            · exact fun q hq c h => hf'.keeps_insertNew d hilt hkey q hq c (hkeeps q hq c h)
            · rw [insertNew_node_new d hilt p]

end Add

section Run

variable (d : α)

theorem start_node (name : Option Str) (d₀ : α) (i : ℕ) :
    (start name d₀).node i = ⟨if i = 0 then name else none, none, [], [], none, d₀⟩ := by
  by_cases hi : i = 0
  · subst hi
    simp [start, Forest.new]
  · simp [start, Forest.new, hi]

theorem invariant_start (name : Option Str) (d₀ : α) : Invariant (start name d₀) := by
  refine ⟨by rw [start_node], Nat.one_pos, ?_, ?_, ?_⟩
  · intro i c hc
    rw [start_node] at hc
    cases hc
  · intro i k c hkey
    rw [start_node] at hkey
    cases hkey
  · intro c i hparent
    rw [start_node] at hparent
    cases hparent

theorem Invariant.apply {f : Forest α} (hf : Invariant f) {op : Op} (hreg : op.Regular f 0) :
    ∃ f', op.apply d 0 f = some f' ∧ Invariant f' ∧ Keeps f f' := by
  cases op with
  | add p =>
      obtain ⟨f', c, hadd, hf', hkeeps, -⟩ := hf.add d hreg
      exact ⟨f', by rw [Op.apply, hadd, Option.map_some], hf', hkeeps⟩
  | remove n =>
      obtain ⟨i, hparent, hnot⟩ := hreg
      exact absurd (hf.parent n i hparent) hnot

theorem Invariant.run {f : Forest α} (hf : Invariant f) {ops : List Op}
    (hreg : RegularRun d 0 f ops) :
    ∃ f', run d 0 f ops = some f' ∧ Invariant f' ∧ Keeps f f' := by
  induction ops generalizing f with
  | nil => exact ⟨f, rfl, hf, fun _ _ _ h => h⟩
  | cons op ops ih =>
      obtain ⟨f₁, h₁, hf₁, hkeeps₁⟩ := hf.apply d hreg.1
      obtain ⟨f₂, h₂, hf₂, hkeeps₂⟩ := ih hf₁ (hreg.2 f₁ h₁)
      refine ⟨f₂, ?_, hf₂, fun q hq c h => hkeeps₂ q hq c (hkeeps₁ q hq c h)⟩
      rw [Tree.run, List.foldlM_cons, h₁]
      exact h₂

/-- After any regular calls a tree represents its paths. An addition returns a node of the
tree with the path that was added, and after any further calls the addition of the
same path returns the same node and changes nothing. -/
theorem represents_of_regularRun (name : Option Str) (d₀ d : α) (ops : List Op)
    (hreg : RegularRun d 0 (start name d₀) ops) :
    ∃ f, run d 0 (start name d₀) ops = some f ∧ f.Represents 0 ∧
      ∀ p, Op.Regular f 0 (.add p) → ∃ f' c, f.add d 0 p = some (f', c) ∧
        f'.Reachable 0 c ∧ (f'.node c).path = written p ∧
        ∀ ops', RegularRun d 0 f' ops' → ∃ f'', run d 0 f' ops' = some f'' ∧
          f''.add d 0 p = some (f'', c) := by
  obtain ⟨f, hrun, hf, -⟩ := (invariant_start name d₀).run d hreg
  refine ⟨f, hrun, hf.represents, fun p hp => ?_⟩
  obtain ⟨f', c, hadd, hf', -, hc, -⟩ := hf.add d hp
  refine ⟨f', c, hadd, hf'.reachable_of_locate hp.1 hc, path_of_locate hf'.root hp.1 hc, ?_⟩
  intro ops' hreg'
  obtain ⟨f'', hrun', -, hkeeps⟩ := hf'.run d hreg'
  exact ⟨f'', hrun', add_of_locate d hp.1 (hkeeps p hp.1 c hc)⟩

/-- Two siblings below a directory that the first of them makes. -/
theorem represents_siblings :
    ∃ f, run () 0 (start none ()) [.add "a/b".toList, .add "a/c".toList] = some f ∧
      f.Represents 0 ∧
      ∀ p, Op.Regular f 0 (.add p) → ∃ f' c, f.add () 0 p = some (f', c) ∧
        f'.Reachable 0 c ∧ (f'.node c).path = written p ∧
        ∀ ops', RegularRun () 0 f' ops' → ∃ f'', run () 0 f' ops' = some f'' ∧
          f''.add () 0 p = some (f'', c) :=
  represents_of_regularRun none () () _ (by decide)

/-- When a second directory has the same name as the first one, the first is not found
again and is made once more; and a node that has been removed is still in the index. -/
theorem not_represents_common :
    (∃ f, run () 0 (start none ()) [.add "Common".toList, .add "../Common".toList,
        .add "Common".toList] = some f ∧ ¬ f.Represents 0) ∧
      ∃ f, run () 0 (start none ()) [.add "Common".toList, .remove 1] = some f ∧
        ¬ f.Represents 0 := by
  constructor
  · refine ⟨_, rfl, fun h => ?_⟩
    have hne : (1 : ℕ) = 3 :=
      h.distinct 1 3 (.child .root (by decide)) (.child .root (by decide)) (by decide)
    exact absurd hne (by decide)
  · refine ⟨_, rfl, fun h => ?_⟩
    have hmem := (h.keyed 0 .root "Common".toList 1 (by decide)).1
    exact absurd hmem (by decide)

end Run

end Tree

end Puremake
