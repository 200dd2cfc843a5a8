import Puremake.Xcode.Localize

/-!
# The pass over any tree

Where the names of files and directories get in the way of each other, the pass loses files or
takes them for groups. It still leaves a heap of trees: a file goes below a node beside the
directory that it was in, whatever that node is, and the directory is taken out.
-/

namespace Puremake

namespace Xcode

open Puremake.Tree

section Untidy

variable {f f' : PrjTree} {level : ℕ → ℕ} {d p c : ℕ} {done rest : List ℕ} {lang : Str}

/-- What moving files never takes away: nodes, names, and that no node has an ID for a build. -/
structure Carries (f f' : PrjTree) : Prop where
  le : f.count ≤ f'.count
  name : ∀ n, (f.node n).name.isSome → (f'.node n).name.isSome
  buildid : ∀ n, (f.node n).data.buildid = none → (f'.node n).data.buildid = none

theorem Carries.refl (f : PrjTree) : Carries f f := ⟨Nat.le_refl _, fun _ => id, fun _ => id⟩

theorem Carries.trans {f'' : PrjTree} (h : Carries f f') (h' : Carries f' f'') : Carries f f'' :=
  ⟨h.le.trans h'.le, fun n hn => h'.name n (h.name n hn), fun n hn => h'.buildid n (h.buildid n hn)⟩

theorem carries_modify {g : Node NodeData → Node NodeData} {i : ℕ}
    (hname : (f.node i).name.isSome → (g (f.node i)).name.isSome)
    (hbuildid : (g (f.node i)).data.buildid = (f.node i).data.buildid) :
    Carries f (f.modify i g) := by
  refine ⟨Nat.le_refl _, fun n hn => ?_, fun n hn => ?_⟩
  · by_cases hni : n = i
    · subst hni
      simpa [Forest.modify] using hname hn
    · simpa [Forest.modify, hni] using hn
  · by_cases hni : n = i
    · subst hni
      simpa [Forest.modify, hbuildid] using hn
    · simpa [Forest.modify, hni] using hn

theorem carries_insert (p c : ℕ) : Carries f (f.insert p c) := by
  rw [Forest.insert]
  exact (carries_modify id rfl).trans (carries_modify id rfl)

theorem carries_new (name : Str) : Carries f (f.new (some name) .empty) := by
  refine ⟨Nat.le_succ _, fun n hn => ?_, fun n hn => ?_⟩
  · by_cases hnc : n = f.count
    · simp [Forest.new, hnc]
    · simpa [Forest.new, hnc] using hn
  · by_cases hnc : n = f.count
    · simp [Forest.new, hnc, NodeData.empty]
    · simpa [Forest.new, hnc] using hn

theorem carries_remove (h : f.remove d = some f') : Carries f f' := by
  obtain ⟨p, -, rfl⟩ := Option.map_eq_some_iff.mp h
  exact (carries_modify id rfl).trans (carries_modify id rfl)

theorem emptying_getgroup (h : Emptying f level d p rest) (k : Str) :
    (∃ level, Emptying (Xcode.getgroup f p (some k)).1 level d p rest) ∧
      ((Xcode.getgroup f p (some k)).1.node (Xcode.getgroup f p (some k)).2).parent = some p ∧
      ((Xcode.getgroup f p (some k)).1.node d).children = (f.node d).children ∧
      Carries f (Xcode.getgroup f p (some k)).1 := by
  cases hlookup : (f.node p).index.lookup k with
  | some g =>
      have hget : Xcode.getgroup f p (some k) = (f, g) := by
        simp [Xcode.getgroup, hlookup]
      rw [hget]
      exact ⟨⟨level, h⟩, h.leveled.keyed p (fun heq => h.ne (Option.some.inj heq)) k g hlookup, rfl,
        .refl f⟩
  | none =>
      have hget : Xcode.getgroup f p (some k) =
          (((f.new (some k) .empty).insert p f.count).modify f.count fun n =>
            { n with data := { n.data with kind := some vgroup } }, f.count) := by
        simp [Xcode.getgroup, hlookup]
      obtain ⟨hp, hd⟩ : p < f.count ∧ d < f.count := (h.leveled.lt d p h.parent).symm
      obtain ⟨hnew, -, hframe⟩ := insert_new_node hp (some k) NodeData.empty
      have hcarries : Carries f ((f.new (some k) .empty).insert p f.count) :=
        (carries_new k).trans (carries_insert p f.count)
      rw [hget]
      refine ⟨⟨_, (h.insert_new k .empty).congr rfl fun n => ?_⟩, ?_, ?_,
        hcarries.trans ?_⟩
      · by_cases hn : n = f.count
        · subst hn
          simp [Forest.modify]
        · simp [Forest.modify, hn]
      · simp [Forest.modify, hnew]
      · simp [Forest.modify, hd.ne, hframe d h.ne hd.ne]
      · dsimp only
        exact carries_modify id rfl

/-- A file that is moved leaves a heap of trees, whatever the names are. -/
theorem emptying_movefile (h : Emptying f level d p (c :: rest))
    (hchildren : (f.node d).children = done ++ c :: rest) (lang : Str) :
    ∃ level' rest', Emptying (Xcode.movefile lang p f c) level' d p rest' ∧
      ((Xcode.movefile lang p f c).node d).children = (done ++ [c]) ++ rest' ∧
      Carries f (Xcode.movefile lang p f c) := by
  obtain ⟨k, hk⟩ := h.leveled.named c d (h.rest c List.mem_cons_self)
  obtain ⟨⟨level', hget⟩, hparent, hsame, hcarries⟩ := emptying_getgroup h k
  rw [Xcode.movefile, hk]
  generalize Xcode.getgroup f p (some k) = r at hget hparent hsame hcarries
  obtain ⟨f₁, g⟩ := r
  dsimp only at hget hparent hsame hcarries ⊢
  have hrename : ∀ n, ((f₁.modify c fun n =>
      { n with name := some (Path.getbasename lang) }).node n).children = (f₁.node n).children ∧
      ((f₁.modify c fun n => { n with name := some (Path.getbasename lang) }).node n).parent =
        (f₁.node n).parent ∧
      ((f₁.modify c fun n => { n with name := some (Path.getbasename lang) }).node n).index =
        (f₁.node n).index ∧ ((f₁.node n).name.isSome → ((f₁.modify c fun n =>
          { n with name := some (Path.getbasename lang) }).node n).name.isSome) := by
    intro n
    by_cases hnc : n = c
    · simp [Forest.modify, hnc]
    · simp [Forest.modify, hnc]
  have hnamed : Carries f₁ (f₁.modify c fun n =>
      { n with name := some (Path.getbasename lang) }) := carries_modify (fun _ => rfl) rfl
  have hmoved : Emptying (f₁.modify c fun n =>
      { n with name := some (Path.getbasename lang) }) level' d p (c :: rest) :=
    hget.congr rfl hrename
  have hdc : d ≠ c := by
    rintro rfl
    have hlevel := h.leveled.level d d (h.rest d List.mem_cons_self)
    omega
  generalize (f₁.modify c fun n => { n with name := some (Path.getbasename lang) }) = f₂
    at hrename hnamed hmoved ⊢
  have hgc : g ≠ c := by
    rintro rfl
    have hc := hget.rest g List.mem_cons_self
    exact hget.ne (Option.some.inj (hc.symm.trans hparent))
  refine ⟨level', _, hmoved.insert ((hrename g).2.1.trans hparent), ?_,
    (hcarries.trans hnamed).trans (carries_insert g c)⟩
  obtain ⟨-, -, hchildreng, -⟩ := @insert_parent _ f₂ _ _ hgc
  by_cases hgd : g = d
  · subst hgd
    rw [hchildreng, (hrename g).1, hsame, hchildren, if_pos rfl]
    simp
  · rw [insert_node_of_ne (Ne.symm hgd) hdc, (hrename d).1, hsame, hchildren, if_neg hgd]
    simp

theorem emptying_movefiles {fuel : ℕ} (h : Emptying f level d p rest)
    (hchildren : (f.node d).children = done ++ rest)
    (hrun : Xcode.movefiles lang d fuel done.length f = some f') :
    (∃ level' rest', Emptying f' level' d p rest') ∧ Carries f f' := by
  induction fuel generalizing f level done rest with
  | zero => cases hrun
  | succ fuel ih =>
      rw [Xcode.movefiles, hchildren] at hrun
      cases rest with
      | nil =>
          simp only [List.append_nil, List.getElem?_length] at hrun
          obtain rfl := Option.some.inj hrun
          exact ⟨⟨level, [], h⟩, .refl f⟩
      | cons c rest =>
          simp only [List.getElem?_append_right (Nat.le_refl _), Nat.sub_self,
            List.getElem?_cons_zero, h.parent, Option.bind_eq_bind, Option.bind_some] at hrun
          obtain ⟨level', rest', h', hchildren', hcarries⟩ := emptying_movefile h hchildren lang
          have hlength : (done ++ [c]).length = done.length + 1 := by simp
          rw [← hlength] at hrun
          obtain ⟨hempty, hcarries'⟩ := ih h' hchildren' hrun
          exact ⟨hempty, hcarries.trans hcarries'⟩

theorem localizeBranch_keeps (k : ℕ) (f₀ : PrjTree) :
    (localizeBranch k).Keeps fun s => (∃ level, Leveled s.1 level none) ∧ Carries f₀ s.1 := by
  intro d depth s s' ⟨⟨level, h⟩, hcarries⟩ hrun
  obtain ⟨name, -, hrun⟩ := Option.bind_eq_some_iff.mp hrun
  split at hrun
  · obtain ⟨f', hmove, hrun⟩ := Option.bind_eq_some_iff.mp hrun
    obtain ⟨f'', hremove, rfl⟩ := Option.map_eq_some_iff.mp hrun
    cases hparent : (s.1.node d).parent with
    | some p =>
        obtain ⟨⟨level', rest', h'⟩, hcarries'⟩ :=
          @emptying_movefiles _ _ _ _ _ [] _ _ _ (h.emptying hparent) rfl hmove
        exact ⟨⟨level', h'.remove hremove⟩, (hcarries.trans hcarries').trans
          (carries_remove hremove)⟩
    | none =>
        have hf' : f' = s.1 := by
          cases k with
          | zero => cases hmove
          | succ k =>
              rw [movefiles] at hmove
              split at hmove
              · exact (Option.some.inj hmove).symm
              · rw [hparent] at hmove
                cases hmove
        rw [hf', Forest.remove, hparent] at hremove
        cases hremove
  · obtain rfl := Option.some.inj hrun
    exact ⟨⟨level, h⟩, hcarries⟩

theorem leveled_of_localize {fuel tr : ℕ} (h : Leveled f level none)
    (hrun : localize fuel tr f = some f') : (∃ level', Leveled f' level' none) ∧ Carries f f' := by
  obtain ⟨s, hs, rfl⟩ := Option.map_eq_some_iff.mp hrun
  have hkeep : (localizing fuel).Keep fun s =>
      (∃ level, Leveled s.1 level none) ∧ Carries f s.1 :=
    ⟨Callback.skip_keeps _, Callback.skip_keeps _, localizeBranch_keeps fuel f,
      Callback.skip_keeps _, Callback.skip_keeps _⟩
  exact childrenLoop_keeps hkeep ⟨⟨level, h⟩, .refl f⟩ hs

end Untidy

end Xcode

end Puremake
