import Puremake.Tree.Represents

/-!
# What an addition does to the nodes of a tree

Whatever the index says, an addition makes nodes for the path and its directories only, and
gives children to the nodes of its directories only. Every node that it makes has children,
except for the one that it returns.
-/

namespace Puremake

namespace Tree

variable {α : Type*}

theorem getdirectory_length_of_ne {p : Str} (hp : Path.Relative p)
    (h : Path.getdirectory p ≠ dot) : (Path.getdirectory p).length < p.length :=
  (Path.getdirectory_of_relative hp).2.resolve_left h

theorem length_le_of_onTheWay {p : Str} (hp : Path.Relative p) :
    ∀ q ∈ onTheWay p, q.length ≤ p.length := by
  induction p, hp using Path.relative_induction with
  | dot => simp [onTheWay_dot]
  | step p hp hne ih =>
      intro q hq
      rw [onTheWay_of_ne_dot hp hne] at hq
      rcases List.mem_cons.mp hq with rfl | hq
      · exact Nat.le_refl _
      · by_cases hdir : Path.getdirectory p = dot
        · rw [hdir, onTheWay_dot] at hq
          cases hq
        · exact Nat.le_of_lt (Nat.lt_of_le_of_lt (ih q hq) (getdirectory_length_of_ne hp hdir))

theorem not_mem_onTheWay_getdirectory {p : Str} (hp : Path.Relative p) :
    p ∉ onTheWay (Path.getdirectory p) := by
  intro h
  by_cases hdir : Path.getdirectory p = dot
  · rw [hdir, onTheWay_dot] at h
    cases h
  · have hle := length_le_of_onTheWay (Path.getdirectory_of_relative hp).1 p h
    exact absurd (getdirectory_length_of_ne hp hdir) (Nat.not_lt.mpr hle)

theorem onTheWay_getdirectory_subset {p : Str} (hp : Path.Relative p) :
    ∀ q ∈ onTheWay (Path.getdirectory p), q ∈ onTheWay p := by
  intro q hq
  by_cases hne : p = dot
  · rwa [hne, show Path.getdirectory dot = dot from rfl, ← hne] at hq
  · rw [onTheWay_of_ne_dot hp hne]
    exact List.mem_cons_of_mem _ hq

theorem mem_onTheWay_of_written {p : Str} (hp : Path.Relative p) {q : Str}
    (h : written p = some q) : q ∈ onTheWay p := by
  induction p, hp using Path.relative_induction with
  | dot => simp [written] at h
  | step p hp hne ih =>
      rw [written_of_ne_dot hp hne] at h
      split at h
      · exact onTheWay_getdirectory_subset hp q (ih h)
      · obtain rfl : p = q := Option.some.inj h
        exact mem_onTheWay_self hp hne

/-- What holds of any tree that was made by additions. -/
structure WellFormed (f : Forest α) : Prop where
  count_pos : 0 < f.count
  root : (f.node 0).path = none
  listed : ∀ i c, c ∈ (f.node i).children → i < f.count ∧ c < f.count
  keyed : ∀ i k c, (f.node i).index.lookup k = some c → c ∈ (f.node i).children
  reachable : ∀ i, i < f.count → f.Reachable 0 i

/-- How a tree `f` has grown to `f'` by an addition of `p`, which returned `c`. -/
structure Grown (d : α) (f f' : Forest α) (p : Str) (c : ℕ) : Prop where
  wf : WellFormed f'
  le : f.count ≤ f'.count
  lt : c < f'.count
  path : (f'.node c).path = written p
  zero : written p = none → c = 0
  kept : ∀ j, j < f.count →
    (f'.node j).path = (f.node j).path ∧ (f'.node j).data = (f.node j).data ∧
      (f.node j).children ⊆ (f'.node j).children
  children : ∀ j, j < f.count → (f'.node j).children = (f.node j).children ∨ j = 0 ∨
    ∃ q ∈ onTheWay (Path.getdirectory p), (f.node j).path = some q
  fresh : ∀ j, f.count ≤ j → j < f'.count → (f'.node j).data = d ∧
    (j = c ∨ ((f'.node j).children ≠ [] ∧
      ∃ q ∈ onTheWay (Path.getdirectory p), (f'.node j).path = some q))
  last : f.count ≤ c → (f'.node c).children = []

theorem Forest.Reachable.mono {f f' : Forest α}
    (h : ∀ i c, c ∈ (f.node i).children → c ∈ (f'.node i).children) {i : ℕ}
    (hi : f.Reachable 0 i) : f'.Reachable 0 i := by
  induction hi with
  | root => exact .root
  | child _ hc ih => exact .child ih (h _ _ hc)

theorem WellFormed.lt_count {f : Forest α} (hf : WellFormed f) {i : ℕ}
    (hi : f.Reachable 0 i) : i < f.count := by
  cases hi with
  | root => exact hf.count_pos
  | child _ hc => exact (hf.listed _ _ hc).2

theorem WellFormed.insertNew {f : Forest α} (hf : WellFormed f) (d : α) {i : ℕ}
    (hi : i < f.count) (p : Str) : WellFormed (f.insertNew d i p) := by
  have hcount : (f.insertNew d i p).count = f.count + 1 := rfl
  have hmono : ∀ j c, c ∈ (f.node j).children → c ∈ ((f.insertNew d i p).node j).children := by
    intro j c hc
    rw [mem_insertNew_children d hi p (Nat.ne_of_lt (hf.listed j c hc).1)]
    exact .inl hc
  refine ⟨?_, ?_, ?_, ?_, ?_⟩
  · rw [hcount]
    exact Nat.succ_pos _
  · rw [(insertNew_path d hi p (Nat.ne_of_lt hf.count_pos)).1]
    exact hf.root
  · intro j c hc
    rw [hcount]
    by_cases hj : j = f.count
    · rw [hj, insertNew_node_new d hi p] at hc
      cases hc
    · rcases (mem_insertNew_children d hi p hj).mp hc with hc | ⟨rfl, rfl⟩
      · obtain ⟨h₁, h₂⟩ := hf.listed j c hc
        exact ⟨Nat.lt_succ_of_lt h₁, Nat.lt_succ_of_lt h₂⟩
      · exact ⟨Nat.lt_succ_of_lt hi, Nat.lt_succ_self _⟩
  · intro j k c hkey
    by_cases hj : j = f.count
    · rw [hj, insertNew_node_new d hi p] at hkey
      cases hkey
    · rw [mem_insertNew_children d hi p hj]
      rw [insertNew_lookup d hi p hj] at hkey
      by_cases hjk : j = i ∧ k = Path.getname p
      · rw [if_pos hjk] at hkey
        exact .inr ⟨hjk.1, (Option.some.inj hkey).symm⟩
      · rw [if_neg hjk] at hkey
        exact .inl (hf.keyed j k c hkey)
  · intro j hj
    rw [hcount] at hj
    rcases Nat.lt_succ_iff_lt_or_eq.mp hj with hj | rfl
    · exact (hf.reachable j hj).mono hmono
    · refine .child ((hf.reachable i hi).mono hmono) ?_
      rw [mem_insertNew_children d hi p (Nat.ne_of_lt hi)]
      exact .inr ⟨rfl, rfl⟩

theorem wellFormed_start (name : Option Str) (d : α) : WellFormed (start name d) := by
  refine ⟨Nat.one_pos, by rw [start_node], ?_, ?_, ?_⟩
  · intro i c hc
    rw [start_node] at hc
    cases hc
  · intro i k c hkey
    rw [start_node] at hkey
    cases hkey
  · intro i hi
    obtain rfl : i = 0 := Nat.lt_one_iff.mp hi
    exact .root

/-- What the callers keep in the nodes, and the order of the children, do not matter. -/
theorem WellFormed.congr {f f' : Forest α} (hf : WellFormed f) (hcount : f'.count = f.count)
    (h : ∀ i, (f'.node i).path = (f.node i).path ∧ (f'.node i).index = (f.node i).index ∧
      ∀ c, c ∈ (f'.node i).children ↔ c ∈ (f.node i).children) : WellFormed f' where
  count_pos := hcount ▸ hf.count_pos
  root := (h 0).1.trans hf.root
  listed i c hc := hcount ▸ hf.listed i c (((h i).2.2 c).mp hc)
  keyed i k c hkey := ((h i).2.2 c).mpr (hf.keyed i k c ((h i).2.1 ▸ hkey))
  reachable i hi := (hf.reachable i (hcount ▸ hi)).mono fun j c hc => ((h j).2.2 c).mpr hc

theorem Grown.refl {d : α} {f : Forest α} (hf : WellFormed f) : Grown d f f dot 0 where
  wf := hf
  le := Nat.le_refl _
  lt := hf.count_pos
  path := by rw [hf.root]; simp [written]
  zero _ := rfl
  kept _ _ := ⟨rfl, rfl, fun _ h => h⟩
  children _ _ := .inl rfl
  fresh j h h' := absurd h (Nat.not_le.mpr h')
  last h := absurd h (Nat.not_le.mpr hf.count_pos)

/-- The growth up to the directory of a path counts for the path as well. -/
theorem Grown.dir {d : α} {f f' : Forest α} {p : Str} (hp : Path.Relative p) {i : ℕ}
    (h : Grown d f f' (Path.getdirectory p) i) :
    (∀ j, j < f.count → (f'.node j).children = (f.node j).children ∨ j = 0 ∨
      ∃ q ∈ onTheWay (Path.getdirectory p), (f.node j).path = some q) ∧
    ∀ j, f.count ≤ j → j < f'.count → j = i ∨ ((f'.node j).children ≠ [] ∧
      ∃ q ∈ onTheWay (Path.getdirectory p), (f'.node j).path = some q) := by
  have hsub : ∀ q ∈ onTheWay (Path.getdirectory (Path.getdirectory p)),
      q ∈ onTheWay (Path.getdirectory p) :=
    onTheWay_getdirectory_subset (Path.getdirectory_of_relative hp).1
  refine ⟨fun j hj => ?_, fun j hj hj' => ?_⟩
  · rcases h.children j hj with h | h | ⟨q, hq, hpath⟩
    · exact .inl h
    · exact .inr (.inl h)
    · exact .inr (.inr ⟨q, hsub q hq, hpath⟩)
  · obtain ⟨-, h | ⟨hch, q, hq, hpath⟩⟩ := h.fresh j hj hj'
    · exact .inl h
    · exact .inr ⟨hch, q, hsub q hq, hpath⟩

section Step

variable {d : α} {f f' : Forest α} {p : Str} {i : ℕ}

theorem Grown.dotdot (hp : Path.Relative p) (hne : p ≠ dot) (hname : Path.getname p = dotdot)
    (h : Grown d f f' (Path.getdirectory p) i) : Grown d f f' p i := by
  have hwritten : written p = written (Path.getdirectory p) := by
    rw [written_of_ne_dot hp hne, if_pos hname]
  obtain ⟨hchildren, hfresh⟩ := h.dir hp
  refine ⟨h.wf, h.le, h.lt, ?_, ?_, h.kept, hchildren, ?_, h.last⟩
  · rw [hwritten]
    exact h.path
  · rw [hwritten]
    exact h.zero
  · exact fun j hj hj' => ⟨(h.fresh j hj hj').1, hfresh j hj hj'⟩

/-- The node of the directory, when it is new, has a path on the way. -/
theorem Grown.exists_path (hp : Path.Relative p) (h : Grown d f f' (Path.getdirectory p) i)
    (hi : 0 < i) : ∃ q ∈ onTheWay (Path.getdirectory p), (f'.node i).path = some q := by
  cases hw : written (Path.getdirectory p) with
  | none => exact absurd (h.zero hw) (Nat.ne_of_gt hi)
  | some q =>
      exact ⟨q, mem_onTheWay_of_written (Path.getdirectory_of_relative hp).1 hw,
        h.path.trans hw⟩

/-- An addition may return a node that is listed in the node of the directory. -/
theorem Grown.found (hf : WellFormed f) (hp : Path.Relative p) (hne : p ≠ dot)
    (hname : Path.getname p ≠ Puremake.dotdot)
    (h : Grown d f f' (Path.getdirectory p) i) {c : ℕ}
    (hc : c ∈ (f'.node i).children) (hpath : (f'.node c).path = some p) :
    Grown d f f' p c := by
  have hwritten : written p = some p := written_eq hp hne hname
  obtain ⟨hchildren, hfresh⟩ := h.dir hp
  have hold : c < f.count := by
    refine Nat.not_le.mp fun hle => not_mem_onTheWay_getdirectory hp ?_
    have hon : ∃ q ∈ onTheWay (Path.getdirectory p), (f'.node c).path = some q := by
      rcases hfresh c hle (h.wf.listed i c hc).2 with rfl | ⟨-, hq⟩
      · exact h.exists_path hp (Nat.lt_of_lt_of_le hf.count_pos hle)
      · exact hq
    obtain ⟨q, hq, hpath'⟩ := hon
    obtain rfl : p = q := Option.some.inj (hpath.symm.trans hpath')
    exact hq
  refine ⟨h.wf, h.le, (h.wf.listed i c hc).2, hpath.trans hwritten.symm, ?_, h.kept, hchildren,
    ?_, fun hle => absurd hold (Nat.not_lt.mpr hle)⟩
  · rw [hwritten]
    exact fun h => nomatch h
  · intro j hj hj'
    refine ⟨(h.fresh j hj hj').1, .inr ?_⟩
    rcases hfresh j hj hj' with rfl | hin
    · exact ⟨List.ne_nil_of_mem hc, h.exists_path hp (Nat.lt_of_lt_of_le hf.count_pos hj)⟩
    · exact hin

theorem Grown.insertNew (hf : WellFormed f) (hp : Path.Relative p) (hne : p ≠ dot)
    (hname : Path.getname p ≠ Puremake.dotdot)
    (h : Grown d f f' (Path.getdirectory p) i) :
    Grown d f (f'.insertNew d i p) p f'.count := by
  have hwritten : written p = some p := written_eq hp hne hname
  have hcount : (f'.insertNew d i p).count = f'.count + 1 := rfl
  obtain ⟨hchildren, hfresh⟩ := h.dir hp
  have hnew := insertNew_node_new d h.lt p
  refine ⟨h.wf.insertNew d h.lt p, Nat.le_succ_of_le h.le, Nat.lt_succ_self _, ?_, ?_, ?_, ?_,
    ?_, ?_⟩
  · rw [hnew, hwritten]
  · rw [hwritten]
    exact fun h => nomatch h
  · intro j hj
    have hj' : j ≠ f'.count := Nat.ne_of_lt (Nat.lt_of_lt_of_le hj h.le)
    obtain ⟨hpath, hdata, hsub⟩ := h.kept j hj
    obtain ⟨hpath', -, -, hdata'⟩ := insertNew_path d h.lt p hj'
    refine ⟨hpath'.trans hpath, hdata'.trans hdata, fun c hc => ?_⟩
    rw [mem_insertNew_children d h.lt p hj']
    exact .inl (hsub hc)
  · intro j hj
    have hj' : j ≠ f'.count := Nat.ne_of_lt (Nat.lt_of_lt_of_le hj h.le)
    by_cases hji : j = i
    · refine .inr ((Nat.eq_zero_or_pos j).imp id fun hpos => ?_)
      obtain ⟨q, hq, hpath⟩ := h.exists_path hp (hji ▸ hpos)
      exact ⟨q, hq, (h.kept j hj).1.symm.trans (hji ▸ hpath)⟩
    · rw [insertNew_node_of_ne d p hj' hji]
      exact hchildren j hj
  · intro j hj hjlt
    rcases Nat.lt_succ_iff_lt_or_eq.mp hjlt with hjlt | rfl
    · have hj' : j ≠ f'.count := Nat.ne_of_lt hjlt
      obtain ⟨hpath', -, -, hdata'⟩ := insertNew_path d h.lt p hj'
      refine ⟨hdata'.trans (h.fresh j hj hjlt).1, .inr ?_⟩
      rw [hpath']
      rcases hfresh j hj hjlt with rfl | ⟨hch, hq⟩
      · refine ⟨?_, h.exists_path hp (Nat.lt_of_lt_of_le hf.count_pos hj)⟩
        exact List.ne_nil_of_mem ((mem_insertNew_children d h.lt p hj').mpr (.inr ⟨rfl, rfl⟩))
      · obtain ⟨c, hc⟩ := List.exists_mem_of_ne_nil _ hch
        exact ⟨List.ne_nil_of_mem ((mem_insertNew_children d h.lt p hj').mpr (.inl hc)), hq⟩
    · rw [hnew]
      exact ⟨rfl, .inl rfl⟩
  · intro _
    rw [hnew]

end Step

theorem WellFormed.add {f : Forest α} (hf : WellFormed f) (d : α) {p : Str}
    (hp : Path.Relative p) : ∃ f' c, f.add d 0 p = some (f', c) ∧ Grown d f f' p c := by
  induction p, hp using Path.relative_induction with
  | dot => exact ⟨f, 0, add_dot d 0, .refl hf⟩
  | step p hp hne ih =>
      obtain ⟨f', i, hadd, hgrown⟩ := ih
      rw [add_of_ne_dot d 0 hp hne, hadd, Option.map_some]
      by_cases hname : Path.getname p = dotdot
      · exact ⟨f', i, by rw [Forest.extend, if_pos hname], hgrown.dotdot hp hne hname⟩
      · have hins := hgrown.insertNew hf hp hne hname
        rw [Forest.extend, if_neg hname]
        cases hkey : (f'.node i).index.lookup (Path.getname p) with
        | none => exact ⟨_, _, rfl, hins⟩
        | some c =>
            by_cases hpath : (f'.node c).path = some p
            · refine ⟨f', c, by simp only [hpath, if_true], ?_⟩
              exact hgrown.found hf hp hne hname (hgrown.wf.keyed i _ c hkey) hpath
            · exact ⟨_, _, by simp only [hpath, if_false], hins⟩

end Tree

end Puremake
