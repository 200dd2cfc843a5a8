import Puremake.Grove.Basic
import Puremake.Tree.Basic

/-!
# Trees in the heap

A finite tree stands in the heap when the nodes list each other as `tree.insert` makes
them list: a node has its parent, and the list of its children has the roots of what is
below it. `tree.new` and `tree.insert` build such trees, and `tree.remove` takes a node
out of the list of its parent.
-/

namespace Puremake

namespace Tree

variable {α : Type*}

/-- A grove stands in the heap below a node: every node has its parent, and its children are the
roots of what is below it. -/
def Holds (f : Forest α) : ℕ → Grove ℕ → Prop
  | _, .nil => True
  | p, .cons n below next => (f.node n).parent = some p ∧ (f.node n).children = below.roots ∧
      Holds f n below ∧ Holds f p next

instance decidableHolds (f : Forest α) : (p : ℕ) → (t : Grove ℕ) → Decidable (Holds f p t)
  | _, .nil => inferInstanceAs (Decidable True)
  | p, .cons n below next =>
    haveI := decidableHolds f n below
    haveI := decidableHolds f p next
    inferInstanceAs (Decidable ((f.node n).parent = some p ∧ (f.node n).children = below.roots ∧
      Holds f n below ∧ Holds f p next))

/-- A finite tree, as `tree.insert` builds it: the grove `t` stands below the root, and every node
is listed once. -/
structure Stands (f : Forest α) (tr : ℕ) (t : Grove ℕ) : Prop where
  children : (f.node tr).children = t.roots
  holds : Holds f tr t
  nodup : (tr :: t.nodes).Nodup

section Heap

variable {f f' : Forest α} {p n : ℕ} {t : Grove ℕ}

theorem Holds.congr_fields (h : Holds f p t) (heq : ∀ n ∈ t.nodes,
    (f'.node n).parent = (f.node n).parent ∧ (f'.node n).children = (f.node n).children) :
    Holds f' p t := by
  induction t generalizing p with
  | nil => trivial
  | cons n below next ihb ihn =>
      obtain ⟨hparent, hchildren, hbelow, hnext⟩ := h
      obtain ⟨hparent', hchildren'⟩ := heq n List.mem_cons_self
      refine ⟨hparent'.trans hparent, hchildren'.trans hchildren, ihb hbelow fun m hm => ?_,
        ihn hnext fun m hm => ?_⟩
      · exact heq m (List.mem_cons_of_mem _ (List.mem_append_left _ hm))
      · exact heq m (List.mem_cons_of_mem _ (List.mem_append_right _ hm))

theorem Holds.congr (h : Holds f p t) (heq : ∀ n ∈ t.nodes, f'.node n = f.node n) :
    Holds f' p t :=
  h.congr_fields fun n hn => by rw [heq n hn]; exact ⟨rfl, rfl⟩

theorem removeLoop_cons_of_ne {c : ℕ} (h : c ≠ n) (l : List ℕ) :
    Forest.removeLoop n (c :: l) = c :: Forest.removeLoop n l := by
  cases l with
  | nil => simp [Forest.removeLoop, h]
  | cons c' l => simp [Forest.removeLoop, h]

theorem removeLoop_of_notMem {l : List ℕ} (h : n ∉ l) : Forest.removeLoop n l = l := by
  induction l with
  | nil => rfl
  | cons c l ih =>
      rw [removeLoop_cons_of_ne fun hc : c = n => h (hc ▸ List.mem_cons_self),
        ih fun hn => h (List.mem_cons_of_mem _ hn)]

/-- The loop of `tree.remove` takes out a node that is listed once. -/
theorem removeLoop_append {done rest : List ℕ} (hdone : n ∉ done) (hrest : n ∉ rest) :
    Forest.removeLoop n (done ++ n :: rest) = done ++ rest := by
  induction done with
  | nil =>
      cases rest with
      | nil => simp [Forest.removeLoop]
      | cons c rest =>
          have hrest' := removeLoop_of_notMem fun hn => hrest (List.mem_cons_of_mem c hn)
          simp [Forest.removeLoop, hrest']
  | cons c done ih =>
      rw [List.cons_append,
        removeLoop_cons_of_ne fun hc : c = n => hdone (hc ▸ List.mem_cons_self),
        ih fun hn => hdone (List.mem_cons_of_mem _ hn)]
      rfl

def SameLabels (f f' : Forest α) : Prop :=
  ∀ n, (f'.node n).name = (f.node n).name ∧ (f'.node n).path = (f.node n).path ∧
    (f'.node n).data = (f.node n).data

theorem SameLabels.refl (f : Forest α) : SameLabels f f := fun _ => ⟨rfl, rfl, rfl⟩

theorem SameLabels.trans {f'' : Forest α} (h : SameLabels f f') (h' : SameLabels f' f'') :
    SameLabels f f'' := fun n =>
  ⟨(h' n).1.trans (h n).1, (h' n).2.1.trans (h n).2.1, (h' n).2.2.trans (h n).2.2⟩

/-- What `tree.remove` does to a node that its parent lists once. -/
theorem remove_node {done rest : List ℕ} (hparent : (f.node n).parent = some p) (hne : n ≠ p)
    (hchildren : (f.node p).children = done ++ n :: rest) (hdone : n ∉ done) (hrest : n ∉ rest) :
    ∃ f', f.remove n = some f' ∧ f'.count = f.count ∧
      f'.node p = { f.node p with children := done ++ rest } ∧
      f'.node n = { f.node n with children := [], index := [] } ∧
      ∀ m, m ≠ p → m ≠ n → f'.node m = f.node m := by
  rw [Forest.remove, hparent]
  refine ⟨_, rfl, ?_, ?_, ?_, ?_⟩
  · rfl
  · simp [Forest.modify, hne.symm, hchildren, removeLoop_append hdone hrest]
  · simp [Forest.modify, hne]
  · intro m hp hn
    simp [Forest.modify, hp, hn]

/-- The lists of children, the parents and the labels after `tree.remove`. -/
theorem remove_spec {done rest : List ℕ} (hparent : (f.node n).parent = some p) (hne : n ≠ p)
    (hchildren : (f.node p).children = done ++ n :: rest) (hdone : n ∉ done) (hrest : n ∉ rest) :
    ∃ f', f.remove n = some f' ∧ (f'.node p).children = done ++ rest ∧
      (f'.node n).children = [] ∧ (f'.node p).parent = (f.node p).parent ∧
      (∀ m, m ≠ p → m ≠ n → f'.node m = f.node m) ∧ SameLabels f f' := by
  obtain ⟨f', hf', -, hp, hn, hframe⟩ := remove_node hparent hne hchildren hdone hrest
  refine ⟨f', hf', by rw [hp], by rw [hn], by rw [hp], hframe, fun m => ?_⟩
  by_cases hmn : m = n
  · rw [hmn, hn]
    exact ⟨rfl, rfl, rfl⟩
  · by_cases hmp : m = p
    · rw [hmp, hp]
      exact ⟨rfl, rfl, rfl⟩
    · rw [hframe m hmp hmn]
      exact ⟨rfl, rfl, rfl⟩

end Heap

section Listing

variable {f : Forest α} {p n : ℕ} {t : Grove ℕ} {as above : List ℕ}

theorem Holds.leaves_eq_filter (h : Holds f p t) :
    t.leaves = t.nodes.filter fun n => (f.node n).children = [] := by
  induction t generalizing p with
  | nil => rfl
  | cons m below next ihb ihn =>
      obtain ⟨-, hchildren, hbelow, hnext⟩ := h
      by_cases hnil : below = .nil
      · subst hnil
        have hempty : (f.node m).children = [] := hchildren
        rw [Grove.leaves, Grove.nodes, Grove.nodes, List.nil_append, ihn hnext,
          List.filter_cons_of_pos (by simpa using hempty)]
      · have hne : (f.node m).children ≠ [] := by
          rw [hchildren]
          exact fun h => hnil (Grove.roots_eq_nil_iff.mp h)
        rw [Grove.leaves_branch hnil, ihb hbelow, ihn hnext, Grove.nodes,
          List.filter_cons_of_neg (by simpa using hne), List.filter_append]

theorem Holds.mem_leaves_iff (h : Holds f p t) :
    n ∈ t.leaves ↔ n ∈ t.nodes ∧ (f.node n).children = [] := by
  rw [h.leaves_eq_filter, List.mem_filter, decide_eq_true_iff]

theorem Holds.parent_of_mem_listing (h : Holds f p t) (hn : (n, as) ∈ t.listing above) :
    (as = above ∧ n ∈ t.roots ∧ (f.node n).parent = some p) ∨
      ∃ a as', as = a :: as' ∧ (a, as') ∈ t.listing above ∧ n ∈ (f.node a).children ∧
        (f.node n).parent = some a := by
  induction t generalizing p above with
  | nil => cases hn
  | cons m below next ihb ihn =>
      obtain ⟨hparent, hchildren, hbelow, hnext⟩ := h
      rcases List.mem_cons.mp hn with heq | hn
      · obtain ⟨rfl, rfl⟩ := Prod.mk.injEq _ _ _ _ ▸ heq
        exact .inl ⟨rfl, List.mem_cons_self, hparent⟩
      rcases List.mem_append.mp hn with hn | hn
      · rcases ihb hbelow hn with ⟨rfl, hroot, hm⟩ | ⟨a, as', rfl, ha, hm⟩
        · exact .inr ⟨m, above, rfl, List.mem_cons_self, hchildren ▸ hroot, hm⟩
        · exact .inr ⟨a, as', rfl, List.mem_cons_of_mem _ (List.mem_append_left _ ha), hm⟩
      · rcases ihn hnext hn with ⟨rfl, hroot, hm⟩ | ⟨a, as', rfl, ha, hm⟩
        · exact .inl ⟨rfl, List.mem_cons_of_mem _ hroot, hm⟩
        · exact .inr ⟨a, as', rfl, List.mem_cons_of_mem _ (List.mem_append_right _ ha), hm⟩

theorem Holds.parent_of_mem_roots (h : Holds f p t) (hn : n ∈ t.roots) :
    (f.node n).parent = some p := by
  induction t with
  | nil => cases hn
  | cons m below next _ ih =>
      obtain ⟨hparent, -, -, hnext⟩ := h
      rcases List.mem_cons.mp hn with rfl | hn
      · exact hparent
      · exact ih hnext hn

theorem Holds.parent_mem (h : Holds f p t) (hn : n ∈ t.nodes) :
    ∃ q ∈ p :: t.nodes, (f.node n).parent = some q := by
  obtain ⟨as, hn⟩ := Grove.exists_mem_listing hn []
  rcases h.parent_of_mem_listing hn with ⟨-, -, hp⟩ | ⟨a, as, rfl, ha, -, hp⟩
  · exact ⟨p, List.mem_cons_self, hp⟩
  · exact ⟨a, List.mem_cons_of_mem _ (Grove.mem_nodes_of_mem_listing ha), hp⟩

/-- A node that is somewhere above another one is listed, and has a child on the way: this is the
other one or a branch. -/
theorem Holds.on_the_way (h : Holds f p t) {below : List ℕ} {d : ℕ}
    (hn : (n, below ++ d :: as) ∈ t.listing []) : (d, as) ∈ t.listing [] ∧
      ∃ x ∈ (f.node d).children, below = [] ∧ x = n ∨ (f.node x).children ≠ [] := by
  induction below generalizing n with
  | nil =>
      rcases h.parent_of_mem_listing hn with ⟨hnil, -⟩ | ⟨a, as', heq, ha, hmem, -⟩
      · cases hnil
      · obtain ⟨rfl, rfl⟩ := List.cons.inj heq
        exact ⟨ha, n, hmem, .inl ⟨rfl, rfl⟩⟩
  | cons b below ih =>
      rcases h.parent_of_mem_listing hn with ⟨hnil, -⟩ | ⟨a, as', heq, ha, hmem, -⟩
      · cases hnil
      · obtain ⟨rfl, rfl⟩ := List.cons.inj heq
        obtain ⟨hd, x, hx, hchild⟩ := ih ha
        refine ⟨hd, x, hx, .inr ?_⟩
        rcases hchild with ⟨-, rfl⟩ | hbranch
        · exact List.ne_nil_of_mem hmem
        · exact hbranch

theorem Holds.mem_of_mem_children {c : ℕ} (h : Holds f p t) (hn : n ∈ t.nodes)
    (hc : c ∈ (f.node n).children) : c ∈ t.nodes ∧ (f.node c).parent = some n := by
  induction t generalizing p with
  | nil => cases hn
  | cons m below next ihb ihn =>
      obtain ⟨-, hchildren, hbelow, hnext⟩ := h
      rw [Grove.nodes, List.mem_cons, List.mem_append] at hn ⊢
      rcases hn with rfl | hn | hn
      · rw [hchildren] at hc
        exact ⟨.inr (.inl (Grove.roots_subset_nodes below hc)), hbelow.parent_of_mem_roots hc⟩
      · exact (ihb hbelow hn).imp_left fun h => .inr (.inl h)
      · exact (ihn hnext hn).imp_left fun h => .inr (.inr h)

theorem Stands.mem_nodes_iff (h : Stands f tr t) :
    n ∈ t.nodes ↔ n ≠ tr ∧ f.Reachable tr n := by
  have htr : tr ∉ t.nodes := (List.nodup_cons.mp h.nodup).1
  constructor
  · intro hn
    refine ⟨fun heq => htr (heq ▸ hn), ?_⟩
    obtain ⟨as, has⟩ := Grove.exists_mem_listing hn []
    induction as generalizing n with
    | nil =>
        rcases h.holds.parent_of_mem_listing has with ⟨-, hroot, -⟩ | ⟨a, as, hnil, -⟩
        · exact .child .root (h.children ▸ hroot)
        · cases hnil
    | cons a as ih =>
        rcases h.holds.parent_of_mem_listing has with ⟨hnil, -⟩ | ⟨a', as', heq, ha, hmem, -⟩
        · cases hnil
        · obtain ⟨rfl, rfl⟩ := List.cons.inj heq
          exact .child (ih (Grove.mem_nodes_of_mem_listing ha) ha) hmem
  · rintro ⟨hne, hreach⟩
    have hmem : n = tr ∨ n ∈ t.nodes := by
      clear hne
      induction hreach with
      | root => exact .inl rfl
      | @child i c _ hc ih =>
          refine .inr ?_
          rcases ih with rfl | hi
          · exact Grove.roots_subset_nodes t (h.children ▸ hc)
          · exact (h.holds.mem_of_mem_children hi hc).1
    exact hmem.resolve_left hne

theorem Holds.nodes_subset {q : ℕ} {s : Grove ℕ} (hs : Holds f p s)
    (ht : Holds f q t) (hroots : s.roots ⊆ t.nodes) : s.nodes ⊆ t.nodes := by
  induction s generalizing p with
  | nil => exact List.nil_subset _
  | cons n below next ihb ihn =>
      obtain ⟨-, hchildren, hbelow, hnext⟩ := hs
      have hn : n ∈ t.nodes := hroots List.mem_cons_self
      rw [Grove.nodes, List.cons_subset, List.append_subset]
      refine ⟨hn, ihb hbelow fun m hm => ?_, ihn hnext fun m hm => ?_⟩
      · exact (ht.mem_of_mem_children hn (hchildren ▸ hm)).1
      · exact hroots (List.mem_cons_of_mem n hm)

theorem Holds.nodes_eq_roots (h : Holds f p t) (hleaf : ∀ n ∈ t.roots, (f.node n).children = []) :
    t.nodes = t.roots ∧ t.leaves = t.roots := by
  induction t with
  | nil => exact ⟨rfl, rfl⟩
  | cons m below next _ ih =>
      obtain ⟨-, hchildren, -, hnext⟩ := h
      have hnil : below = .nil := by
        rw [← Grove.roots_eq_nil_iff, ← hchildren]
        exact hleaf m List.mem_cons_self
      subst hnil
      obtain ⟨hnodes, hleaves⟩ := ih hnext fun n hn => hleaf n (List.mem_cons_of_mem _ hn)
      exact ⟨congrArg (m :: ·) hnodes, congrArg (m :: ·) hleaves⟩

end Listing

section Insert

variable {f : Forest α} {tr p c : ℕ} {t s : Grove ℕ}

theorem Holds.append {q : ℕ} (ht : Holds f q t) (hs : Holds f q s) : Holds f q (t.append s) := by
  induction t with
  | nil => exact hs
  | cons n below next _ ih =>
      obtain ⟨hparent, hchildren, hbelow, hnext⟩ := ht
      exact ⟨hparent, hchildren, hbelow, ih hnext⟩

theorem insert_node_of_ne {m : ℕ} (hp : m ≠ p) (hc : m ≠ c) :
    (f.insert p c).node m = f.node m := by
  simp [Forest.insert, Forest.modify, hp, hc]

theorem insert_parent (hpc : p ≠ c) : ((f.insert p c).node c).parent = some p ∧
    ((f.insert p c).node c).children = (f.node c).children ∧
    ((f.insert p c).node p).children = (f.node p).children ++ [c] ∧
    ((f.insert p c).node p).parent = (f.node p).parent := by
  simp [Forest.insert, Forest.modify, hpc, hpc.symm]

theorem new_node_of_ne {name : Option Str} {d : α} {m : ℕ} (h : m ≠ f.count) :
    (f.new name d).node m = f.node m := by
  simp [Forest.new, h]

theorem stands_new (f : Forest α) (name : Option Str) (d : α) :
    Stands (f.new name d) f.count .nil := by
  refine ⟨?_, trivial, List.nodup_singleton _⟩
  simp [Forest.new, Grove.roots]

theorem Stands.new (h : Stands f tr t) (hcount : ∀ m ∈ tr :: t.nodes, m ≠ f.count)
    (name : Option Str) (d : α) : Stands (f.new name d) tr t := by
  refine ⟨?_, h.holds.congr fun m hm => new_node_of_ne (hcount m (List.mem_cons_of_mem _ hm)),
    h.nodup⟩
  rw [new_node_of_ne (hcount tr List.mem_cons_self), h.children]

theorem holds_inserted (hs : Holds f c s) (hroots : (f.node c).children = s.roots)
    (hpc : p ≠ c) (hp : p ∉ s.nodes) (hc : c ∉ s.nodes) :
    Holds (f.insert p c) p (.cons c s .nil) := by
  obtain ⟨hparent, hchildren, -, -⟩ := @insert_parent _ f _ _ hpc
  refine ⟨hparent, hchildren.trans hroots, hs.congr fun m hm => ?_, trivial⟩
  exact insert_node_of_ne (fun h => hp (h ▸ hm)) fun h => hc (h ▸ hm)

theorem apart_of_nodup {as cs : List ℕ} (h : (as ++ c :: cs).Nodup) (hp : p ∈ as) :
    p ≠ c ∧ p ∉ cs ∧ c ∉ cs := by
  obtain ⟨-, hcs, hdisj⟩ := List.nodup_append.mp h
  exact ⟨hdisj p hp c List.mem_cons_self,
    fun h => hdisj p hp p (List.mem_cons_of_mem _ h) rfl, (List.nodup_cons.mp hcs).1⟩

/-- A tree that is inserted below a node of a grove stands there. -/
theorem Holds.insert {q : ℕ} (ht : Holds f q t) (hs : Holds f c s)
    (hroots : (f.node c).children = s.roots) (hnodup : (t.nodes ++ c :: s.nodes).Nodup)
    (hpc : p ≠ c) (hp : p ∉ s.nodes) :
    Holds (f.insert p c) q (t.graft p (.cons c s .nil)) := by
  obtain ⟨-, -, hchildrenp, hparentp⟩ := @insert_parent _ f _ _ hpc
  induction t generalizing q with
  | nil => trivial
  | cons n below next ihb ihn =>
      obtain ⟨hparent, hchildren, hbelow, hnext⟩ := ht
      rw [Grove.nodes, List.cons_append, List.nodup_cons, List.append_assoc] at hnodup
      obtain ⟨hn, hnodup⟩ := hnodup
      obtain ⟨-, hnextc, hdisj⟩ := List.nodup_append.mp hnodup
      have hnc : n ≠ c := fun h => hn
        (h ▸ List.mem_append_right _ (List.mem_append_right _ List.mem_cons_self))
      by_cases hnp : n = p
      · subst hnp
        -- The nodes of the two groves stay as they are, and `n` gets a child.
        have hkept : ∀ g : Grove ℕ, (∀ m ∈ g.nodes, m ≠ n ∧ m ≠ c) → ∀ q, Holds f q g →
            Holds (f.insert n c) q g := fun g hg q h =>
          h.congr fun m hm => insert_node_of_ne (hg m hm).1 (hg m hm).2
        have hnextn : ∀ m ∈ next.nodes, m ≠ n ∧ m ≠ c := fun m hm =>
          ⟨fun h => hn (h ▸ List.mem_append_right _ (List.mem_append_left _ hm)),
            (apart_of_nodup hnextc hm).1⟩
        have hbelown : ∀ m ∈ below.nodes, m ≠ n ∧ m ≠ c := fun m hm =>
          ⟨fun h => hn (h ▸ List.mem_append_left _ hm),
            hdisj m hm c (List.mem_append_right _ List.mem_cons_self)⟩
        rw [Grove.graft, if_pos rfl]
        refine ⟨hparentp.trans hparent, ?_, (hkept below hbelown _ hbelow).append
          (holds_inserted hs hroots hpc hp (List.nodup_cons.mp (List.nodup_append.mp
            hnextc).2.1).1), hkept next hnextn _ hnext⟩
        rw [hchildrenp, hchildren, Grove.roots_append]
        rfl
      · rw [Grove.graft, if_neg hnp]
        have hnode : (f.insert p c).node n = f.node n := insert_node_of_ne hnp hnc
        refine ⟨?_, ?_, ihb hbelow (hnodup.sublist ?_), ihn hnext hnextc⟩
        · rw [hnode, hparent]
        · rw [hnode, hchildren, Grove.roots_graft]
        · exact (List.sublist_append_right _ _).append_left _

theorem Stands.insert (ht : Stands f tr t) (hs : Stands f c s)
    (hnodup : (tr :: t.nodes ++ c :: s.nodes).Nodup) (hp : p ∈ tr :: t.nodes) :
    ∃ t', Stands (f.insert p c) tr t' ∧ t'.nodes.Perm (t.nodes ++ c :: s.nodes) := by
  obtain ⟨hpc, hps, hcs⟩ := apart_of_nodup hnodup hp
  obtain ⟨-, -, hchildrenp, -⟩ := @insert_parent _ f _ _ hpc
  have htail : (t.nodes ++ c :: s.nodes).Nodup := (List.nodup_cons.mp hnodup).2
  rcases List.mem_cons.mp hp with rfl | hp
  · have hkept : Holds (f.insert p c) p t := ht.holds.congr fun m hm =>
      insert_node_of_ne (fun h => (List.nodup_cons.mp ht.nodup).1 (h ▸ hm))
        (apart_of_nodup htail hm).1
    have hnodes : (t.append (.cons c s .nil)).nodes = t.nodes ++ c :: s.nodes := by
      rw [Grove.nodes_append, Grove.nodes, Grove.nodes, List.append_nil]
    refine ⟨t.append (.cons c s .nil), ⟨?_, hkept.append
      (holds_inserted hs.holds hs.children hpc hps hcs), ?_⟩, .of_eq hnodes⟩
    · rw [hchildrenp, ht.children, Grove.roots_append]
      rfl
    · rwa [hnodes]
  · have hperm : (t.graft p (.cons c s .nil)).nodes.Perm (t.nodes ++ c :: s.nodes) := by
      have h := @Grove.nodes_graft _ _ t (.cons c s .nil) p (List.nodup_cons.mp ht.nodup).2 hp
      rwa [Grove.nodes, Grove.nodes, List.append_nil] at h
    have hkept : (f.insert p c).node tr = f.node tr := insert_node_of_ne
      (fun h => (List.nodup_cons.mp ht.nodup).1 (h ▸ hp)) (apart_of_nodup hnodup
        List.mem_cons_self).1
    refine ⟨t.graft p (.cons c s .nil), ⟨?_, ht.holds.insert hs.holds hs.children htail hpc hps,
      (hperm.cons tr).nodup_iff.mpr hnodup⟩, hperm⟩
    rw [hkept, ht.children, Grove.roots_graft]

end Insert

end Tree

end Puremake
