import Puremake.Tree.Built

/-!
# Names in the source tree

The nodes that `tree.add` makes for a path are called by the last parts of the path and of the
directories on its way. So what the parts of all virtual paths have in common, the names in the
source tree have, too.
-/

namespace Puremake

namespace Tree

section Labels

variable {α : Type*} {Q : Str → Prop} {f f' : Forest α}

def NamesHave (Q : Str → Prop) (f : Forest α) : Prop := ∀ n s, (f.node n).name = some s → Q s

/-- A property that is kept from a path to its parts. -/
structure OfParts (Q : Str → Prop) : Prop where
  getdirectory : ∀ p, Path.Relative p → p ≠ dot → Q p → Q (Path.getdirectory p)
  getname : ∀ p, Q p → Q (Path.getname p)

theorem NamesHave.insertNew (h : NamesHave Q f) {i : ℕ} (hi : i < f.count) (d : α) {p : Str}
    (hp : Q (Path.getname p)) : NamesHave Q (f.insertNew d i p) := by
  intro n s hs
  by_cases hn : n = f.count
  · rw [hn, insertNew_node_new d hi p] at hs
    obtain rfl := Option.some.inj hs
    exact hp
  · rw [(insertNew_path d hi p hn).2.1] at hs
    exact h n s hs

/-- The nodes for a path have names with the property when the path has it. -/
theorem NamesHave.add (hQ : OfParts Q) (h : NamesHave Q f) (hindexed : Indexed f) {d : α}
    {tr c : ℕ} {p : Str} (htr : tr < f.count) (hp : Q p) (hadd : f.add d tr p = some (f', c)) :
    NamesHave Q f' := by
  have hrel : Path.Relative p := Path.relative_of_along _ _ hadd
  induction p, hrel using Path.relative_induction generalizing f' c with
  | dot =>
      rw [Forest.add, Path.along_dot] at hadd
      obtain ⟨rfl, rfl⟩ := Prod.mk.inj (Option.some.inj hadd)
      exact h
  | step p hrel hne ih =>
      rw [Forest.add, Path.along_of_ne_dot _ _ hrel hne] at hadd
      obtain ⟨⟨f₁, i⟩, hrest, hstep⟩ := Option.map_eq_some_iff.mp hadd
      have h₁ : NamesHave Q f₁ := ih (hQ.getdirectory p hrel hne hp) hrest
      have hi : i < f₁.count := (add_invariant (fun _ _ _ _ hf hk => hf.lt_of_lookup hk)
        (fun _ _ p hf hi => hf.insertNew hi d p) hindexed htr hrest).2.1
      have hinsert : NamesHave Q (f₁.insertNew d i p) := h₁.insertNew hi d (hQ.getname p hp)
      rw [Forest.extend] at hstep
      split at hstep
      · obtain ⟨rfl, rfl⟩ := Prod.mk.inj hstep
        exact h₁
      split at hstep
      · split at hstep
        · obtain ⟨rfl, rfl⟩ := Prod.mk.inj hstep
          exact h₁
        · obtain ⟨rfl, rfl⟩ := Prod.mk.inj hstep
          exact hinsert
      · obtain ⟨rfl, rfl⟩ := Prod.mk.inj hstep
        exact hinsert

end Labels

end Tree

namespace Project

open Puremake.Tree

section Labels

variable {Q : Str → Prop} {ord : PairsOrder} {name : Str} {cfg : BakedConfig}
  {f : Tree.Forest SourceData} {files : List SourceFile}

theorem namesHave_of_buildsourcetree (hQ : OfParts Q) (hname : Q name)
    (hfiles : eachfile ord cfg = .ok files) (hvpath : ∀ file ∈ files, Q file.vpath)
    (h : buildsourcetree ord name cfg = .ok f) : NamesHave Q f := by
  obtain ⟨files', f₁, hfiles', hrun, rfl⟩ := buildsourcetree_eq_ok.mp h
  obtain rfl : files = files' := Except.ok.inj (hfiles.symm.trans hfiles')
  have hstart : NamesHave Q (Tree.start (some name) (⟨false, none⟩ : SourceData)) := by
    intro n s hs
    rw [start_node] at hs
    split at hs
    · obtain rfl := Option.some.inj hs
      exact hname
    · cases hs
  have h₁ : Indexed f₁ ∧ NamesHave Q f₁ :=
    @FoldRun.foldlM_invariant _ _ _ Project.addFile (fun _ file => Q file.vpath ∧ True)
      (fun _ f => Indexed f ∧ NamesHave Q f) (fun done f file f' hs hfile hadd => by
        refine ⟨indexed_addFile hs.1 hadd, ?_⟩
        rw [Project.addFile] at hadd
        split at hadd
        · cases hadd
        · rename_i f₁ c hnode
          obtain rfl : enter f₁ c file.fcfg = f' := Except.ok.inj hadd
          intro n s hs'
          rw [(enter_name f₁ c file.fcfg n).1] at hs'
          exact hs.2.add hQ hs.1 hs.1.count_pos hfile.1 hnode n s hs') [] files _ _
      ⟨indexed_start (some name) _, hstart⟩
      ((FoldRun.along_of_forall (fun _ _ => trivial) _ _).and_of_forall hvpath) hrun
  exact h₁.2

end Labels

end Project

end Puremake
