import Mathlib.Data.List.Nodup

/-!
# Groves

An ordered list of ordered trees is either empty or a root, the grove below it and the trees
that follow. The listing of a grove names every node with the nodes above it, the nearest one
first, from the front to the back and a node before what is below it.

A walk through a grove can prune the node that it visits, with everything below. What
it visits, and what it leaves, are parts of the listing.
-/

namespace Puremake

inductive Grove (α : Type*)
  | nil
  | cons (a : α) (below next : Grove α)

namespace Grove

inductive Event (α : Type*)
  | node (a : α) (depth : ℕ)
  | enter (a : α) (depth : ℕ)
  | branch (a : α) (depth : ℕ)
  | leaf (a : α) (depth : ℕ)
  | exit (a : α) (depth : ℕ)
  deriving DecidableEq, Repr

variable {α : Type*}

def roots : Grove α → List α
  | nil => []
  | cons a _ next => a :: next.roots

def nodes : Grove α → List α
  | nil => []
  | cons a below next => a :: (below.nodes ++ next.nodes)

def listing (above : List α) : Grove α → List (α × List α)
  | nil => []
  | cons a below next => (a, above) :: (below.listing (a :: above) ++ next.listing above)

def append : Grove α → Grove α → Grove α
  | nil, s => s
  | cons a below next, s => cons a below (next.append s)

def prune (removed : α → Bool) : Grove α → Grove α
  | nil => nil
  | cons a below next =>
      if removed a then next.prune removed
      else cons a (below.prune removed) (next.prune removed)

/-- What a walk calls for that removes a node when it is called for it: a leaf, or a branch
before what is below it. -/
def walk (removed : α → Bool) (depth : ℕ) : Grove α → List (Event α)
  | nil => []
  | cons a nil next => .node a depth :: .leaf a depth :: next.walk removed depth
  | cons a (cons b below after) next =>
      .node a depth :: .enter a depth :: .branch a depth ::
        ((if removed a then [] else (cons b below after).walk removed (depth + 1)) ++
          .exit a depth :: next.walk removed depth)

def Event.visit? : Event α → Option (α × ℕ)
  | .node a depth => some (a, depth)
  | _ => none

/-- The grove below a node that stands in a grove, and the nodes above it. -/
inductive Place : List α → Grove α → α → List α → Grove α → Prop
  | here {above : List α} {a : α} {below next : Grove α} :
      Place above (cons a below next) a above below
  | under {above : List α} {a : α} {below next : Grove α} {x : α} {as : List α} {b : Grove α} :
      Place (a :: above) below x as b → Place above (cons a below next) x as b
  | after {above : List α} {a : α} {below next : Grove α} {x : α} {as : List α} {b : Grove α} :
      Place above next x as b → Place above (cons a below next) x as b

def spared (removed : α → Bool) (e : α × List α) : Bool := e.2.all fun b => !removed b

section Listing

variable {above : List α} {removed : α → Bool}

theorem roots_eq_nil_iff {t : Grove α} : t.roots = [] ↔ t = nil := by
  cases t with
  | nil => exact iff_of_true rfl rfl
  | cons a below next => exact iff_of_false (List.cons_ne_nil _ _) nofun

theorem roots_sublist_nodes (t : Grove α) : t.roots.Sublist t.nodes := by
  induction t with
  | nil => exact List.Sublist.refl _
  | cons a below next _ ih =>
      exact (ih.trans (List.sublist_append_right _ _)).cons_cons a

theorem roots_subset_nodes (t : Grove α) : t.roots ⊆ t.nodes := (roots_sublist_nodes t).subset

theorem nodes_prune_sublist (removed : α → Bool) (t : Grove α) :
    (t.prune removed).nodes.Sublist t.nodes := by
  induction t with
  | nil => exact List.Sublist.refl _
  | cons a below next ihb ihn =>
      rw [prune]
      split
      · exact (ihn.trans (List.sublist_append_right _ _)).cons a
      · exact (ihb.append ihn).cons_cons a

theorem roots_append (t s : Grove α) : (t.append s).roots = t.roots ++ s.roots := by
  induction t with
  | nil => rfl
  | cons a below next _ ih => exact congrArg (a :: ·) ih

theorem nodes_append (t s : Grove α) : (t.append s).nodes = t.nodes ++ s.nodes := by
  induction t with
  | nil => rfl
  | cons a below next _ ih => rw [append, nodes, nodes, ih, List.cons_append, List.append_assoc]

@[simp] theorem map_fst_listing (above : List α) (t : Grove α) :
    (t.listing above).map Prod.fst = t.nodes := by
  induction t generalizing above with
  | nil => rfl
  | cons a below next ihb ihn =>
      rw [listing, nodes, List.map_cons, List.map_append, ihb, ihn]

/-- The nodes above a listed node are those that the listing starts with, and nodes between. -/
theorem suffix_of_mem_listing {t : Grove α} {e : α × List α} (he : e ∈ t.listing above) :
    above <:+ e.2 := by
  induction t generalizing above with
  | nil => cases he
  | cons a below next ihb ihn =>
      rcases List.mem_cons.mp he with rfl | he
      · exact List.suffix_refl _
      · rcases List.mem_append.mp he with he | he
        · exact (List.suffix_cons a above).trans (ihb he)
        · exact ihn he

theorem exists_mem_listing {t : Grove α} {a : α} (ha : a ∈ t.nodes) (above : List α) :
    ∃ as, (a, as) ∈ t.listing above := by
  rw [← map_fst_listing above] at ha
  obtain ⟨⟨a, as⟩, h, rfl⟩ := List.mem_map.mp ha
  exact ⟨as, h⟩

theorem mem_nodes_of_mem_listing {t : Grove α} {e : α × List α} (he : e ∈ t.listing above) :
    e.1 ∈ t.nodes := by
  rw [← map_fst_listing above]
  exact List.mem_map_of_mem he

theorem listing_unique {t : Grove α} (hnodup : t.nodes.Nodup) {a : α} {as as' : List α}
    (h : (a, as) ∈ t.listing above) (h' : (a, as') ∈ t.listing above) : as = as' := by
  rw [← map_fst_listing above] at hnodup
  exact congrArg Prod.snd (List.inj_on_of_nodup_map hnodup h h' rfl)

theorem not_spared_of_removed {a : α} (ha : removed a) {t : Grove α} :
    ∀ e ∈ t.listing (a :: above), spared removed e = false := by
  intro e he
  obtain ⟨pre, hpre⟩ := suffix_of_mem_listing he
  refine List.all_eq_false.mpr ⟨a, ?_, by simp [ha]⟩
  rw [← hpre]
  exact List.mem_append_right _ List.mem_cons_self

/-- Pruning leaves the nodes that are neither removed nor below a removed one, with the same
nodes above them. -/
theorem listing_prune (habove : ∀ b ∈ above, removed b = false) (t : Grove α) :
    (t.prune removed).listing above =
      (t.listing above).filter fun e => !removed e.1 && spared removed e := by
  induction t generalizing above with
  | nil => rfl
  | cons a below next ihb ihn =>
      have hspared : spared removed (a, above) = true :=
        List.all_eq_true.mpr fun b hb => by simp [habove b hb]
      rw [prune, listing, List.filter_cons, List.filter_append, ← ihn habove]
      cases ha : removed a with
      | true =>
          have hnone : (below.listing (a :: above)).filter
              (fun e => !removed e.1 && spared removed e) = [] :=
            List.filter_eq_nil_iff.mpr fun e he => by simp [not_spared_of_removed ha e he]
          simp [hnone]
      | false =>
          rw [← ihb (List.forall_mem_cons.mpr ⟨ha, habove⟩)]
          simp [hspared, listing]

/-- A walk visits the nodes that are not below a removed one, in the order of the listing, and a
node below another one is one deeper. -/
theorem visits_walk (habove : ∀ b ∈ above, removed b = false) {first : ℕ} (t : Grove α) :
    (t.walk removed (first + above.length)).filterMap Event.visit? =
      ((t.listing above).filter (spared removed)).map fun e => (e.1, first + e.2.length) := by
  induction t generalizing above with
  | nil => rfl
  | cons a below next ihb ihn =>
      have hspared : spared removed (a, above) = true :=
        List.all_eq_true.mpr fun b hb => by simp [habove b hb]
      rw [listing, List.filter_cons_of_pos hspared, List.filter_append, List.map_cons,
        List.map_append, ← ihn habove]
      cases below with
      | nil => simp [walk, listing, Event.visit?, List.filterMap_cons]
      | cons b below after =>
          rw [walk]
          simp only [List.filterMap_cons, Event.visit?, List.filterMap_append]
          cases ha : removed a with
          | true =>
              have hnone : ((cons b below after).listing (a :: above)).filter
                  (spared removed) = [] :=
                List.filter_eq_nil_iff.mpr fun e he => by simp [not_spared_of_removed ha e he]
              simp [hnone]
          | false =>
              rw [← ihb (List.forall_mem_cons.mpr ⟨ha, habove⟩)]
              simp [Nat.add_assoc]

end Listing

section Brackets

variable {above as : List α} {removed : α → Bool} {t b : Grove α} {x : α}

theorem walk_cons (removed : α → Bool) (depth : ℕ) (a : α) (below next : Grove α) :
    (cons a below next).walk removed depth =
      (cons a below nil).walk removed depth ++ next.walk removed depth := by
  cases below with
  | nil => rfl
  | cons b below after =>
      rw [walk, walk]
      simp [walk]

theorem walk_branch {below : Grove α} (hbelow : below ≠ nil) (removed : α → Bool) (depth : ℕ)
    (a : α) (next : Grove α) : (cons a below next).walk removed depth =
      [.node a depth] ++ .enter a depth :: (.branch a depth ::
        if removed a then [] else below.walk removed (depth + 1)) ++
          .exit a depth :: next.walk removed depth := by
  cases below with
  | nil => exact absurd rfl hbelow
  | cons b below after =>
      rw [walk]
      simp

theorem Place.mem_listing (h : Place above t x as b) : (x, as) ∈ t.listing above := by
  induction h with
  | here => exact List.mem_cons_self
  | under _ ih => exact List.mem_cons_of_mem _ (List.mem_append_left _ ih)
  | after _ ih => exact List.mem_cons_of_mem _ (List.mem_append_right _ ih)

theorem Place.below_ne_nil {a : α} {below : Grove α} {as : List α}
    (h : Place (a :: above) below x as b) : below ≠ nil := by
  rintro rfl
  cases h

theorem Place.walk_eq (h : Place above t x as b) (hb : b ≠ nil)
    (hspared : spared removed (x, as)) (first : ℕ) :
    ∃ pre post, t.walk removed (first + above.length) =
      pre ++ .enter x (first + as.length) :: (.branch x (first + as.length) ::
        if removed x then [] else b.walk removed (first + (x :: as).length)) ++
          .exit x (first + as.length) :: post := by
  induction h with
  | here => exact ⟨_, _, walk_branch hb removed _ _ _⟩
  | @under above a below next x as b h ih =>
      obtain ⟨pre, post, hwalk⟩ := ih hb hspared
      have ha : removed a = false := by
        have hmem : a ∈ as := (suffix_of_mem_listing h.mem_listing).subset List.mem_cons_self
        simpa using List.all_eq_true.mp hspared a hmem
      refine ⟨[.node a (first + above.length), .enter a (first + above.length),
        .branch a (first + above.length)] ++ pre,
        post ++ .exit a (first + above.length) :: next.walk removed (first + above.length), ?_⟩
      have hdepth : first + above.length + 1 = first + (a :: above).length := rfl
      rw [walk_branch h.below_ne_nil, ha, hdepth, if_neg Bool.false_ne_true, hwalk]
      simp
  | @after above a below next x as b h ih =>
      obtain ⟨pre, post, hwalk⟩ := ih hb hspared
      refine ⟨(cons a below nil).walk removed (first + above.length) ++ pre, post, ?_⟩
      rw [walk_cons, hwalk]
      simp

/-- Between the events that bracket a branch are the visits of the nodes below it. -/
theorem Place.exists_brackets (h : Place above t x as b) (hb : b ≠ nil)
    (hspared : spared removed (x, as)) (first : ℕ) :
    ∃ pre mid post, t.walk removed (first + above.length) =
        pre ++ .enter x (first + as.length) :: mid ++ .exit x (first + as.length) :: post ∧
      mid.filterMap Event.visit? = ((b.listing (x :: as)).filter (spared removed)).map
        fun e => (e.1, first + e.2.length) := by
  obtain ⟨pre, post, hwalk⟩ := h.walk_eq hb hspared first
  refine ⟨pre, _, post, hwalk, ?_⟩
  cases hx : removed x with
  | true =>
      have hnone : (b.listing (x :: as)).filter (spared removed) = [] :=
        List.filter_eq_nil_iff.mpr fun e he => by simp [not_spared_of_removed hx e he]
      simp [hnone, Event.visit?, List.filterMap_cons]
  | false =>
      have hvisits := @visits_walk _ (x :: as) removed (List.forall_mem_cons.mpr
        ⟨hx, fun y hy => by simpa using List.all_eq_true.mp hspared y hy⟩) first b
      simpa [Event.visit?, List.filterMap_cons] using hvisits

end Brackets

section Leaves

variable {t s : Grove α} {a p : α} {below : Grove α}

def leaves : Grove α → List α
  | nil => []
  | cons a nil next => a :: next.leaves
  | cons _ (cons b below after) next => (cons b below after).leaves ++ next.leaves

theorem leaves_branch (hbelow : below ≠ nil) (a : α) (next : Grove α) :
    (cons a below next).leaves = below.leaves ++ next.leaves := by
  cases below with
  | nil => exact absurd rfl hbelow
  | cons b below after => rw [leaves]

theorem mem_leaves_next {next : Grove α} (h : p ∈ next.leaves) (a : α) (below : Grove α) :
    p ∈ (cons a below next).leaves := by
  by_cases hbelow : below = nil
  · subst hbelow
    exact List.mem_cons_of_mem a h
  · rw [leaves_branch hbelow]
    exact List.mem_append_right _ h

theorem leaves_sublist_nodes (t : Grove α) : t.leaves.Sublist t.nodes := by
  induction t with
  | nil => exact List.Sublist.refl _
  | cons a below next ihb ihn =>
      by_cases hbelow : below = nil
      · subst hbelow
        exact ihn.cons_cons a
      · rw [leaves_branch hbelow]
        exact (ihb.append ihn).cons a

theorem leaves_append (t s : Grove α) : (t.append s).leaves = t.leaves ++ s.leaves := by
  induction t with
  | nil => rfl
  | cons a below next _ ih =>
      by_cases hbelow : below = nil
      · subst hbelow
        exact congrArg (a :: ·) ih
      · rw [append, leaves_branch hbelow, leaves_branch hbelow, ih, List.append_assoc]

theorem leaves_eq_nil_iff {t : Grove α} : t.leaves = [] ↔ t = nil := by
  induction t with
  | nil => exact iff_of_true rfl rfl
  | cons a below next ihb _ =>
      refine iff_of_false (fun h => ?_) nofun
      by_cases hbelow : below = nil
      · subst hbelow
        exact List.cons_ne_nil _ _ h
      · rw [leaves_branch hbelow] at h
        exact hbelow (ihb.mp (List.append_eq_nil_iff.mp h).1)

theorem append_ne_nil (ht : t ≠ nil) (s : Grove α) : t.append s ≠ nil := by
  cases t with
  | nil => exact absurd rfl ht
  | cons a below next => exact nofun

end Leaves

section Graft

theorem perm_append_right_comm (l l' l'' : List α) : (l ++ l'' ++ l').Perm (l ++ l' ++ l'') := by
  rw [List.append_assoc, List.append_assoc]
  exact List.perm_append_comm.append_left l

variable [DecidableEq α] {t s : Grove α} {p : α}

/-- A grove `s` at the end of what is below the node `p`. -/
def graft (t : Grove α) (p : α) (s : Grove α) : Grove α :=
  match t with
  | nil => nil
  | cons a below next =>
      if a = p then cons a (below.append s) next
      else cons a (below.graft p s) (next.graft p s)

@[simp] theorem roots_graft (t : Grove α) (p : α) (s : Grove α) :
    (t.graft p s).roots = t.roots := by
  induction t with
  | nil => rfl
  | cons a below next _ ih =>
      rw [graft]
      split
      · rfl
      · rw [roots, roots, ih]

theorem graft_of_notMem (hp : p ∉ t.nodes) : t.graft p s = t := by
  induction t with
  | nil => rfl
  | cons a below next ihb ihn =>
      have hap : a ≠ p := fun h => hp (h ▸ List.mem_cons_self)
      rw [graft, if_neg hap,
        ihb fun h => hp (List.mem_cons_of_mem _ (List.mem_append_left _ h)),
        ihn fun h => hp (List.mem_cons_of_mem _ (List.mem_append_right _ h))]

theorem graft_append (hp : p ∉ t.nodes) (s s' : Grove α) :
    (t.append s).graft p s' = t.append (s.graft p s') := by
  induction t with
  | nil => rfl
  | cons a below next _ ih =>
      have hap : a ≠ p := fun h => hp (h ▸ List.mem_cons_self)
      rw [append, graft, if_neg hap,
        graft_of_notMem fun h => hp (List.mem_cons_of_mem _ (List.mem_append_left _ h)),
        ih fun h => hp (List.mem_cons_of_mem _ (List.mem_append_right _ h)), append]

theorem nodes_graft (hnodup : t.nodes.Nodup) (hp : p ∈ t.nodes) :
    (t.graft p s).nodes.Perm (t.nodes ++ s.nodes) := by
  induction t with
  | nil => cases hp
  | cons a below next ihb ihn =>
      obtain ⟨-, hnodup⟩ := List.nodup_cons.mp hnodup
      obtain ⟨hb, hn, hdisj⟩ := List.nodup_append.mp hnodup
      rw [graft]
      split
      · rw [nodes, nodes_append]
        exact (perm_append_right_comm _ _ _).cons a
      · rename_i hap
        rw [nodes, nodes]
        rcases List.mem_append.mp ((List.mem_cons.mp hp).resolve_left (Ne.symm hap)) with hp | hp
        · rw [graft_of_notMem fun h => hdisj p hp p h rfl]
          exact (((ihb hb hp).append_right _).trans (perm_append_right_comm _ _ _)).cons a
        · rw [graft_of_notMem fun h => hdisj p h p hp rfl]
          exact (((ihn hn hp).append_left _).trans (.of_eq (List.append_assoc _ _ _).symm)).cons a

theorem graft_eq_nil_iff : t.graft p s = nil ↔ t = nil := by
  rw [← roots_eq_nil_iff, roots_graft, roots_eq_nil_iff]

theorem leaves_graft (hnodup : t.nodes.Nodup) (hp : p ∈ t.nodes) (hleaf : p ∉ t.leaves) :
    (t.graft p s).leaves.Perm (t.leaves ++ s.leaves) := by
  induction t with
  | nil => cases hp
  | cons a below next ihb ihn =>
      obtain ⟨-, hnodup⟩ := List.nodup_cons.mp hnodup
      obtain ⟨hb, hn, hdisj⟩ := List.nodup_append.mp hnodup
      by_cases hbelow : below = nil
      · subst hbelow
        have hap : a ≠ p := fun h => hleaf (h ▸ List.mem_cons_self)
        rw [graft, if_neg hap]
        exact (ihn hn ((List.mem_cons.mp hp).resolve_left (Ne.symm hap))
          fun h => hleaf (List.mem_cons_of_mem _ h)).cons a
      rw [leaves_branch hbelow] at hleaf ⊢
      rw [graft]
      split
      · rw [leaves_branch (append_ne_nil hbelow s), leaves_append]
        exact perm_append_right_comm _ _ _
      · rename_i hap
        rw [leaves_branch fun h => hbelow (graft_eq_nil_iff.mp h)]
        rcases List.mem_append.mp ((List.mem_cons.mp hp).resolve_left (Ne.symm hap)) with hp | hp
        · rw [graft_of_notMem fun h => hdisj p hp p h rfl]
          exact ((ihb hb hp fun h => hleaf (List.mem_append_left _ h)).append_right _).trans
            (perm_append_right_comm _ _ _)
        · rw [graft_of_notMem fun h => hdisj p h p hp rfl, List.append_assoc]
          exact (ihn hn hp fun h => hleaf (List.mem_append_right _ h)).append_left _

end Graft

end Grove

end Puremake
