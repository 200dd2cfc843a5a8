import Puremake.Bake.Merge

/-!
# Two merges side by side

Two merges over the same blocks that start from equal filter terms, from
settings that agree, and from heaps in which the tables of the blocks hold the
same kinds make the same choices: they end with equal terms and settings that
agree, and the tables still hold the same kinds.

The lists `configurations` and `platforms` are left out of the comparison. They
are settings of the solution that every configuration carries along, and no
choice depends on them.
-/

namespace Puremake

open FoldRun

/-- Two objects agree in every field but the two lists of the solution. -/
def AgreeOff (c d : Fields) : Prop :=
  ∀ f, f ≠ .configurations → f ≠ .platforms → c f = d f

/-- Two objects agree, and refer to the same table of terms. -/
structure Same (cfg cfg' : Obj) : Prop where
  fields : AgreeOff cfg.fields cfg'.fields
  terms : cfg.terms = cfg'.terms

section Same

variable {cfg cfg' src src' : Obj}

@[refl] theorem Same.refl (cfg : Obj) : Same cfg cfg := ⟨fun _ _ _ => rfl, rfl⟩

theorem Same.symm (h : Same cfg cfg') : Same cfg' cfg :=
  ⟨fun f h₁ h₂ => (h.fields f h₁ h₂).symm, h.terms.symm⟩

theorem Same.trans {cfg'' : Obj} (h : Same cfg cfg') (h' : Same cfg' cfg'') : Same cfg cfg'' :=
  ⟨fun f h₁ h₂ => (h.fields f h₁ h₂).trans (h'.fields f h₁ h₂), h.terms.trans h'.terms⟩

theorem Same.kind (h : Same cfg cfg') : cfg.kind = cfg'.kind :=
  h.fields .kind (by decide) (by decide)

theorem Same.mergeobject (h : Same cfg cfg') (hsrc : Same src src') :
    Same (mergeobject cfg src) (mergeobject cfg' src') where
  fields f h₁ h₂ := mergefields_congr (h.fields f h₁ h₂) (hsrc.fields f h₁ h₂)
  terms := by simp [Puremake.mergeobject, h.terms, hsrc.terms]

end Same

/-- Two states of the loop that are alike, as far as the tables at the addresses
in `A` are concerned. -/
structure Alike (A : List ℕ) (st st' : MergeState) : Prop where
  cfg : Same st.cfg st'.cfg
  terms : st.terms = st'.terms
  kinds : ∀ a ∈ A, (st.heap a).kind = (st'.heap a).kind

section Alike

variable {env : Env} {A : List ℕ}

theorem alike_mergeMatching {st st' : MergeState} (h : Alike A st st') {blk : Block}
    (hblk : blk.addr ∈ A) : Alike A (mergeMatching st blk) (mergeMatching st' blk) := by
  have hcfg : Same (mergeobject st.cfg blk.obj) (mergeobject st'.cfg blk.obj) :=
    h.cfg.mergeobject (.refl _)
  have hkind := hcfg.kind
  have hheap := h.kinds blk.addr hblk
  rcases mergeMatching_cases st blk with ⟨kind, hk, hnone, heq⟩ | ⟨hskip, heq⟩
  · rcases mergeMatching_cases st' blk with ⟨kind', hk', -, heq'⟩ | ⟨hskip', -⟩
    · have hsame : kind = kind' := by
        rw [hkind, hk'] at hk
        exact (Option.some.inj hk).symm
      subst hsame
      rw [heq, heq']
      refine ⟨hcfg, by simp [MergeState.setKind, h.terms], fun a ha => ?_⟩
      rw [setKind_heap_kind, setKind_heap_kind]
      split
      · rfl
      · exact h.kinds a ha
    · rw [← hkind, ← hheap, hk, hnone] at hskip'
      simp at hskip'
  · rcases mergeMatching_cases st' blk with ⟨kind', hk', hnone', -⟩ | ⟨-, heq'⟩
    · rw [hkind, hheap, hk', hnone'] at hskip
      simp at hskip
    · rw [heq, heq']
      exact ⟨hcfg, h.terms, h.kinds⟩

theorem alike_mergeBlock {st st' : MergeState} (h : Alike A st st') {blk : Block}
    (hblk : blk.addr ∈ A) {s : MergeState} (hs : mergeBlock env st blk = .ok s) :
    ∃ s', mergeBlock env st' blk = .ok s' ∧ Alike A s s' := by
  rcases mergeBlock_eq_ok.mp hs with ⟨hm, rfl⟩ | ⟨hm, rfl⟩
  · rw [h.terms] at hm
    exact ⟨_, mergeBlock_eq_ok.mpr (Or.inl ⟨hm, rfl⟩), alike_mergeMatching h hblk⟩
  · rw [h.terms] at hm
    exact ⟨_, mergeBlock_eq_ok.mpr (Or.inr ⟨hm, rfl⟩), h⟩

theorem alike_mergeBlocks {blks : List Block} {st st' : MergeState} (h : Alike A st st')
    (hblks : ∀ blk ∈ blks, blk.addr ∈ A) {s : MergeState}
    (hs : blks.foldlM (mergeBlock env) st = .ok s) :
    ∃ s', blks.foldlM (mergeBlock env) st' = .ok s' ∧ Alike A s s' := by
  obtain ⟨s', hs', -, hr⟩ := foldlM_simulation (P := fun _ _ => True)
    (R := fun xs st st' => (∀ blk ∈ xs, blk.addr ∈ A) ∧ Alike A st st')
    (fun st st' blk blks s hR _ hs => by
      obtain ⟨s', hs', hr⟩ := alike_mergeBlock hR.2 (hR.1 blk (by simp)) hs
      exact ⟨s', hs', fun b hb => hR.1 b (by simp [hb]), hr⟩)
    ⟨hblks, h⟩ (along_of_forall (fun _ _ => trivial) _ _) hs
  exact ⟨s', hs', hr⟩

end Alike

section Merge

variable {env : Env} {obj obj' : Container} {basis basis' : Option Obj}

theorem AgreeOff.adjustpaths {c d : Fields} (h : AgreeOff c d) (cwd location : Str) :
    AgreeOff (Puremake.adjustpaths cwd location c) (Puremake.adjustpaths cwd location d) :=
  fun f h₁ h₂ => adjustpaths_congr (h f h₁ h₂)

/-- The bases of two merges agree when what they are built from does. -/
theorem same_configBase (hobj : AgreeOff obj.fields obj'.fields)
    (hbasis : Option.Rel Same basis basis') :
    Same (configBase env obj basis) (configBase env obj' basis') := by
  have hloc : obj.fields .location = obj'.fields .location :=
    hobj .location (by decide) (by decide)
  have hcfg : Same (basis.elim Obj.empty (mergeobject Obj.empty))
      (basis'.elim Obj.empty (mergeobject Obj.empty)) := by
    cases hbasis with
    | none => exact .refl _
    | some h => exact (Same.refl _).mergeobject h
  rw [configBase, configBase, hloc]
  exact Same.mergeobject ⟨hcfg.fields.adjustpaths _ _, hcfg.terms⟩ ⟨hobj, rfl⟩

theorem startTerms_congr {cfg cfg' : Obj} (h : Same cfg cfg') (terms : Terms)
    (cfgname : Option Str) (pltname : Str) :
    startTerms terms cfg cfgname pltname = startTerms terms cfg' cfgname pltname := by
  rw [startTerms, startTerms, h.kind]

theorem merge_alike {A : List ℕ} (hblocks : obj.blocks = obj'.blocks)
    (hA : ∀ blk ∈ obj.blocks, blk.addr ∈ A) (hobj : AgreeOff obj.fields obj'.fields)
    (hbasis : Option.Rel Same basis basis') {heap heap' h : Heap} {terms t : Terms}
    {cfgname : Option Str} {pltname : Str} {cfg : Config}
    (hheap : ∀ a ∈ A, (heap a).kind = (heap' a).kind)
    (hm : merge env obj basis heap terms cfgname pltname = .ok (h, t, cfg)) :
    ∃ h' cfg', merge env obj' basis' heap' terms cfgname pltname = .ok (h', t, cfg') ∧
      Same cfg.toObj cfg'.toObj ∧ ∀ a ∈ A, (h a).kind = (h' a).kind := by
  obtain ⟨st, addr, hst, haddr, rfl, rfl, rfl⟩ := merge_eq_ok.mp hm
  have hbase : Same (configBase env obj basis) (configBase env obj' basis') :=
    same_configBase hobj hbasis
  have hstart : Alike A
      ⟨heap, startTerms terms (configBase env obj basis) cfgname pltname,
        configBase env obj basis⟩
      ⟨heap', startTerms terms (configBase env obj' basis') cfgname pltname,
        configBase env obj' basis'⟩ :=
    ⟨hbase, startTerms_congr hbase terms cfgname pltname, hheap⟩
  obtain ⟨st', hst', halike⟩ := alike_mergeBlocks hstart hA hst
  rw [hblocks] at hst'
  refine ⟨_, _, merge_eq_ok.mpr ⟨st', addr, hst', ?_, rfl, halike.terms, rfl⟩, halike.cfg, ?_⟩
  · rw [← halike.cfg.terms, haddr]
  · intro a ha
    by_cases heq : a = addr
    · subst heq
      rw [Function.update_self, Function.update_self, Terms.overlay_kind,
        Terms.overlay_kind, halike.terms, halike.kinds a ha]
    · rw [Function.update_of_ne heq, Function.update_of_ne heq]
      exact halike.kinds a ha

end Merge

end Puremake
