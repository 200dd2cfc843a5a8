import Puremake.Api.Records
import Puremake.Bake.Applies

/-!
# From a script to the configurations

The lists of a script are kept in blocks, and baking puts the lists of some of the blocks
together again. Since only the last block of a session can be written to, the blocks of a
container hold the calls in the order in which they were made. So a list of a configuration
names each string once, where the script mentions it first: under a block of the solution that
applies, or else under one of the project.

A call of `configuration` with a word that is no string raises an error, but its block stays, with
some of its keywords and without the empty lists that a block starts with. The scripts here have
no such block.
-/

namespace Puremake

open Search (fresh fresh_append fresh_congr mem_fresh)

section Grouped

variable {α : Type*}

/-- In a sorted list, what is under a key stands before what is under greater keys. -/
theorem filter_or_of_sorted {l : List (ℕ × α)} (hl : l.Pairwise fun x y => x.1 ≤ y.1) {b : ℕ}
    {own : List ℕ} (hb : ∀ b' ∈ own, b < b') :
    l.filter (fun e => e.1 ∈ b :: own) = l.filter (fun e => e.1 = b) ++
      l.filter fun e => e.1 ∈ own := by
  induction l with
  | nil => rfl
  | cons e l ih =>
      rw [List.pairwise_cons] at hl
      have hih := ih hl.2
      by_cases heq : e.1 = b
      · have hnot : e.1 ∉ own := fun hmem => absurd (hb _ hmem) (by omega)
        simp only [List.filter_cons, heq, List.mem_cons, true_or, decide_true, if_true,
          List.cons_append, heq ▸ hnot, decide_false, Bool.false_eq_true, if_false]
        rw [← hih]
        simp only [List.mem_cons]
      · by_cases hmem : e.1 ∈ own
        · have hnone : l.filter (fun e => e.1 = b) = [] := by
            rw [List.filter_eq_nil_iff]
            intro x hx
            have hle := hl.1 x hx
            have hlt := hb _ hmem
            simp only [decide_eq_true_eq]
            omega
          rw [hnone, List.nil_append] at hih
          simp only [List.filter_cons, heq, List.mem_cons, hmem, or_true, decide_true, if_true,
            decide_false, Bool.false_eq_true, if_false, hnone, List.nil_append]
          rw [← hih]
          simp only [List.mem_cons]
        · simp only [List.filter_cons, heq, List.mem_cons, hmem, or_self, decide_false,
            Bool.false_eq_true, if_false]
          rw [← hih]
          simp only [List.mem_cons]

/-- The entries of a sorted list under some keys, taken key by key. -/
theorem flatMap_filter_of_sorted {l : List (ℕ × α)} (hl : l.Pairwise fun x y => x.1 ≤ y.1)
    {own : List ℕ} (hown : own.Pairwise (· < ·)) :
    (own.flatMap fun b => l.filter fun e => e.1 = b) = l.filter fun e => e.1 ∈ own := by
  induction own with
  | nil => simp
  | cons b own ih =>
      rw [List.pairwise_cons] at hown
      rw [List.flatMap_cons, ih hown.2, filter_or_of_sorted hl hown.1]

end Grouped

namespace Session

/-- The current configuration is the one that was made last, or the same as before. -/
structure Advances (s s' : Session) : Prop where
  count : s.blockCount ≤ s'.blockCount
  current : s'.currentConfiguration = s.currentConfiguration ∨
    ∃ b, s'.currentConfiguration = some b ∧ s.blockCount ≤ b

theorem Advances.refl (s : Session) : s.Advances s := ⟨le_rfl, Or.inl rfl⟩

theorem Advances.trans {s t u : Session} (h : s.Advances t) (h' : t.Advances u) :
    s.Advances u := by
  refine ⟨h.count.trans h'.count, ?_⟩
  rcases h'.current with heq | ⟨b, hb, hle⟩
  · rw [heq]
    exact h.current
  · exact Or.inr ⟨b, hb, h.count.trans hle⟩

theorem advances_call (host : Host) (s : Session) (c : Call) : s.Advances (s.call host c) :=
  call_steps Advances.refl Advances.trans (fun _ _ => ⟨le_rfl, Or.inl rfl⟩)
    (fun s c _ => ⟨by simp, Or.inr ⟨s.blockCount, by simp⟩⟩)
    (fun _ _ _ _ => ⟨le_rfl, Or.inl rfl⟩) (fun _ _ => ⟨le_rfl, Or.inl rfl⟩) s c

/-- The blocks of a container stand in the order in which they were made. -/
def Sorted (s : Session) : Prop :=
  ∀ c, (s.blocksOf c).Pairwise (· < ·) ∧ ∀ b ∈ s.blocksOf c, b < s.blockCount

theorem Sorted.of_subset {s s' : Session} (h : s.Sorted) (hcount : s.blockCount ≤ s'.blockCount)
    (hsub : ∀ c, s'.blocksOf c = s.blocksOf c ∨ s'.blocksOf c = []) : s'.Sorted := by
  intro c
  rcases hsub c with heq | heq
  · rw [heq]
    exact ⟨(h c).1, fun b hb => Nat.lt_of_lt_of_le ((h c).2 b hb) hcount⟩
  · rw [heq]
    exact ⟨.nil, fun b hb => absurd hb List.not_mem_nil⟩

theorem Sorted.call {s : Session} (h : s.Sorted) (host : Host) (c : Call) :
    (s.call host c).Sorted := by
  refine call_steps (R := fun s s' => s.Sorted → s'.Sorted) (fun _ h => h)
    (fun h h' hs => h' (h hs)) ?_ ?_ ?_ ?_ s c h
  · intro s c h
    exact h.of_subset le_rfl fun d => Or.inl (by cases d <;> rfl)
  · intro s c words h d
    rw [blocksOf_addBlock, addBlock_blockCount]
    split
    · refine ⟨List.pairwise_append.mpr ⟨(h d).1, List.pairwise_singleton _ _, ?_⟩, ?_⟩
      · intro b hb b' hb'
        rw [List.mem_singleton.mp hb']
        exact (h d).2 b hb
      · intro b hb
        rcases List.mem_append.mp hb with hb | hb
        · exact Nat.lt_succ_of_lt ((h d).2 b hb)
        · rw [List.mem_singleton.mp hb]
          exact Nat.lt_succ_self _
    · rw [List.append_nil]
      exact ⟨(h d).1, fun b hb => Nat.lt_succ_of_lt ((h d).2 b hb)⟩
  · intro s name sln isUsage h
    refine h.of_subset le_rfl ?_
    rintro (i | p)
    · exact Or.inl (createproject_solution host s name sln isUsage i).2
    · by_cases hp : p = s.projectCount
      · rw [hp]
        exact Or.inr (createproject_new host s name sln isUsage).2.2.2
      · exact Or.inl (createproject_old host s name sln isUsage hp).2.2.2
  · intro s name h
    refine h.of_subset le_rfl ?_
    rintro (i | p)
    · by_cases hi : i = s.solutionCount
      · subst hi
        exact Or.inr (by simp [blocksOf, newSolution])
      · exact Or.inl (by simp [blocksOf, newSolution, hi])
    · exact Or.inl rfl

end Session

namespace Script

/-- The block that is current at each call, and the strings that the call brings to its field. -/
def trace (f : Field) : Session → List (Surroundings × Call) → List (ℕ × List Str)
  | _, [] => []
  | s, c :: calls =>
      (s.currentConfiguration.map fun b => (b, reaches (.block b) f [] s c)).toList ++
        trace f (after s c) calls

/-- The strings that calls bring to a field while one of some blocks is current. -/
def mentions (f : Field) (calls : List (Surroundings × Call)) (own : List ℕ) : List Str :=
  ((trace f .empty calls).filter fun e => e.1 ∈ own).flatMap Prod.snd

section Trace

variable {f : Field}

theorem advances_after (s : Session) (c : Surroundings × Call) : s.Advances (after s c) := by
  obtain ⟨e, c | ⟨g, arg⟩⟩ := c
  · exact Session.advances_call e.host s c
  · exact .refl s

theorem current_after {s : Session} (h : s.Current) (c : Surroundings × Call) :
    (after s c).Current := by
  obtain ⟨e, c | ⟨g, arg⟩⟩ := c
  · exact h.call e.host c
  · exact h

theorem le_of_mem_trace {s : Session} (h : s.Current) {calls : List (Surroundings × Call)}
    {x : ℕ × List Str} (hx : x ∈ trace f s calls) {b : ℕ} (hb : s.currentConfiguration = some b) :
    b ≤ x.1 := by
  induction calls generalizing s b with
  | nil => cases hx
  | cons c calls ih =>
      rw [trace, hb] at hx
      rcases List.mem_append.mp hx with hx | hx
      · rw [List.mem_singleton.mp hx]
      · have hafter := current_after h c
        rcases (advances_after s c).current with heq | ⟨b', hb', hle⟩
        · exact ih hafter hx (heq.trans hb)
        · exact (Nat.le_of_lt (h b hb)).trans (hle.trans (ih hafter hx hb'))

theorem sorted_trace {s : Session} (h : s.Current) (calls : List (Surroundings × Call)) :
    (trace f s calls).Pairwise fun x y => x.1 ≤ y.1 := by
  induction calls generalizing s with
  | nil => exact .nil
  | cons c calls ih =>
      have hafter := current_after h c
      rw [trace]
      cases hb : s.currentConfiguration with
      | none => exact ih hafter
      | some b =>
          refine List.pairwise_cons.mpr ⟨fun x hx => ?_, ih hafter⟩
          rcases (advances_after s c).current with heq | ⟨b', hb', hle⟩
          · exact le_of_mem_trace hafter hx (heq.trans hb)
          · exact (Nat.le_of_lt (h b hb)).trans (hle.trans (le_of_mem_trace hafter hx hb'))

/-- The history of a field of a block is what the calls bring while the block is current. -/
theorem history_block (hf : f.scope = .config) (b : ℕ) (s : Session)
    (calls : List (Surroundings × Call)) :
    history (.block b) f [] s calls =
      ((trace f s calls).filter fun e => e.1 = b).flatMap Prod.snd := by
  induction calls generalizing s with
  | nil => rfl
  | cons c calls ih =>
      rw [history, trace, List.filter_append, List.flatMap_append, ih]
      refine congrArg (· ++ _) ?_
      have hreach : s.currentConfiguration ≠ some b → reaches (.block b) f [] s c = [] := by
        intro hne
        obtain ⟨e, c | ⟨g, arg⟩⟩ := c
        · rfl
        · rw [reaches, if_neg]
          rintro ⟨rfl, ht⟩
          rw [hf, Session.getobject, Option.map_eq_some_iff] at ht
          obtain ⟨b', hb', heq⟩ := ht
          cases heq
          exact hne hb'
      cases hb : s.currentConfiguration with
      | none =>
          rw [hb] at hreach
          exact hreach (by simp)
      | some b' =>
          rw [hb] at hreach
          by_cases heq : b' = b
          · subst heq
            simp
          · rw [hreach fun h => heq (Option.some.inj h)]
            simp [heq]

/-- What blocks hold together is what the calls bring while one of them is current, in the order
of the calls. -/
theorem flatMap_history (hf : f.scope = .config) {own : List ℕ} (hown : own.Pairwise (· < ·))
    (calls : List (Surroundings × Call)) :
    (own.flatMap fun b => history (.block b) f [] .empty calls) = mentions f calls own := by
  have hsorted : (trace f .empty calls).Pairwise fun x y => x.1 ≤ y.1 :=
    sorted_trace invariant_empty.current calls
  rw [mentions, ← flatMap_filter_of_sorted hsorted hown, List.flatMap_assoc]
  exact congrArg (List.flatMap · own) (funext fun b => history_block hf b _ calls)

end Trace

section Solutions

/-- The words of the configuration blocks are strings. -/
def Worded (st : Script) : Prop :=
  ∀ b < st.session.blockCount, (st.session.blocks b).terms.all Option.isSome

instance (st : Script) : Decidable st.Worded :=
  inferInstanceAs (Decidable (∀ b < st.session.blockCount, _))

variable {st : Script}

theorem initialised_block (h : st.Invariant) (hworded : st.Worded) {b : ℕ}
    (hb : b < st.session.blockCount) : (st.fields (.block b)).Initialised := by
  refine h.filled b hb ?_
  obtain ⟨words, hwords⟩ := h.session.made b hb
  have hnone : none ∉ words := by
    have hterms := hworded b hb
    rw [hwords] at hterms
    intro hmem
    cases List.all_eq_true.mp hterms none hmem
  rw [Session.initialFields, hwords, Session.newBlock]
  simp only [if_neg hnone]
  exact fun _ hf => hf

def block (st : Script) (h : st.Invariant) (hworded : st.Worded) (b : ℕ)
    (hb : b < st.session.blockCount) : Block :=
  ⟨b, (st.session.blocks b).terms.filterMap id, st.fields (.block b),
    initialised_block h hworded hb⟩

/-- The container for baking that a solution or a project of a script is. -/
def container (st : Script) (h : st.Invariant) (hworded : st.Worded) (c : ContainerRef) :
    Container where
  fields := st.fields (.container c)
  blocks := (st.session.blocksOf c).pmap (st.block h hworded) (h.session.blocks c)
  distinct := by
    rw [List.map_pmap]
    refine List.Nodup.pmap (fun b hb b' hb' heq => heq) (h.session.nodup c)

def project (st : Script) (h : st.Invariant) (hworded : st.Worded) (p : ℕ) : Project where
  name := (st.session.projects p).name
  usage := (st.session.projects p).usage
  obj := st.container h hworded (.project p)

def solution (st : Script) (h : st.Invariant) (hworded : st.Worded) (i : ℕ) : Solution where
  obj := st.container h hworded (.solution i)
  projects := (st.session.solutions i).projects.map (st.project h hworded)

/-- `premake.solution.list` -/
def solutions (st : Script) (h : st.Invariant) (hworded : st.Worded) : List Solution :=
  (List.range st.session.solutionCount).map (st.solution h hworded)

def heap (st : Script) : Heap := fun b =>
  Terms.ofWords ((st.session.blocks b).terms.filterMap id)

end Solutions

end Script

/-- The lists that are merged and not copied from other projects, and that are no paths. -/
def Field.IsPlain (f : Field) : Prop :=
  f.fieldKind = .list ∧ f.scope = .config ∧ f ≠ .flags ∧ f.usagecopy = false ∧
    f.linkagecopy = false

instance (f : Field) : Decidable f.IsPlain := inferInstanceAs (Decidable (_ ∧ _))

section Plain

variable {f : Field} {env : Env}

theorem Field.IsPlain.relative (h : f.IsPlain) (cwd location : Str) :
    f.relative cwd location = id := by
  funext item
  rw [Field.relative, h.1]
  rfl

theorem fresh_fresh (inherited own : List Str) :
    fresh [] (fresh [] inherited ++ own) = fresh [] (inherited ++ own) := by
  have hidem : fresh [] (fresh [] inherited) = fresh [] inherited :=
    fresh_of_nodup Search.nodup_fresh (by simp)
  rw [fresh_append, fresh_append, hidem]
  exact congrArg (_ ++ ·) (fresh_congr fun n _ => by simp [mem_fresh])

/-- A plain list of a merged configuration names everything once. -/
theorem Field.IsPlain.arr_mergedFields (h : f.IsPlain) (prj : Container) (basis : Option Obj)
    (own : List Block) : ((mergedFields env prj basis own).list f).arr =
      fresh [] (inheritedItems basis f ++ ownItems prj own f) := by
  rw [list_mergedFields, h.relative, List.map_id, fresh_append]
  exact congrArg (_ ++ ·) (fresh_congr fun n _ => by simp [mem_fresh])

theorem Field.IsPlain.arr_fixedFields (h : f.IsPlain) {plt : Platform} {cfg cfg' : Fields}
    (hfixed : fixedFields plt cfg = .ok cfg') : cfg'.list f = cfg.list f := by
  refine list_fixedFields_of_ne hfixed ?_ h.2.2.1
  rintro rfl
  cases h.1

theorem Field.IsPlain.copiedTo_eq_nil (h : f.IsPlain) (prjs : List BakedProject)
    (prj : BakedProject) (entry : Str × BakedConfig) (connections : List (Str × Connection)) :
    copiedTo env prjs prj entry connections f = [] := by
  have hlinks : f ≠ .links := by
    rintro rfl
    cases h.2.2.2.2
  rw [copiedTo, List.flatMap_eq_nil_iff]
  intro c _
  rw [copiedItems, if_neg fun hl => hlinks hl.1, List.append_nil]
  cases c.2.usageProj.configs.lookup entry.1 with
  | none => rfl
  | some src => simp [contributed, h.2.2.2.1, h.2.2.2.2]

theorem Field.IsPlain.list_adjustpaths (h : f.IsPlain) (c : Fields) (cwd location : Str) :
    (adjustpaths cwd location c).list f = c.list f := by
  rw [Puremake.list_adjustpaths, h.relative, Tbl.mapArr, List.map_id]

theorem Field.IsPlain.ne_location (h : f.IsPlain) : Field.location ≠ f := by
  rintro rfl
  cases h.1

/-- The first loop of `buildconfigs` leaves the plain lists of a solution. -/
theorem Field.IsPlain.ownItems_prepareSolution (h : f.IsPlain) (sln : Solution)
    (above : List Block) : ownItems (prepareSolution env sln).obj above f =
      (sln.obj.fields.list f).arr ++ above.flatMap fun blk => (blk.fields.list f).arr := by
  have hlist : (defaultLocation sln.obj.fields).list f = sln.obj.fields.list f := by
    rw [Fields.list, Fields.list, defaultLocation_of_ne h.ne_location.symm]
  rw [ownItems, ← hlist]
  rfl

/-- The first loop of `buildconfigs` leaves the plain lists of a project. -/
theorem Field.IsPlain.ownItems_prepareProject (h : f.IsPlain) (sln : Container) (prj : Project)
    (own : List Block) (cwd location : Str) :
    ownItems (prepareProject env sln prj).obj (own.map (Block.adjust cwd location)) f =
      (prj.obj.fields.list f).arr ++ own.flatMap fun blk => (blk.fields.list f).arr := by
  have hblocks : ∀ blk : Block, ((blk.adjust cwd location).fields.list f).arr =
      (blk.fields.list f).arr := fun blk => by rw [Block.adjust, h.list_adjustpaths]
  have hlocation : ∀ o : Option Str,
      (prj.obj.fields.withLocation o).list f = prj.obj.fields.list f := by
    intro o
    cases o with
    | none => rfl
    | some location => exact list_set_of_ne _ h.ne_location location
  rw [ownItems, List.flatMap_map, prepareProject, h.list_adjustpaths, hlocation]
  simp only [hblocks]

/-- In every configuration that `buildconfigs` returns, a plain list names everything once that the
blocks of the solution and of the project give that apply. -/
theorem Field.IsPlain.buildconfigs (h : f.IsPlain) {session : List Solution} {heap : Heap}
    {result : List BakedSolution} (hrun : Puremake.buildconfigs env session heap = .ok result)
    {sln : BakedSolution} (hsln : sln ∈ result) {prj : BakedProject} (hprj : prj ∈ sln.projects)
    {e : Str × BakedConfig} (he : e ∈ prj.configs) :
    ∃ sln₀ ∈ session, ∃ prj₀ ∈ sln₀.projects, prj.name = prj₀.name ∧
      ∃ above own, Applies env session heap sln₀ prj₀ e.1 above own ∧
      (e.2.fields.list f).arr = fresh [] (((sln₀.obj.fields.list f).arr ++
        above.flatMap fun blk => (blk.fields.list f).arr) ++
        ((prj₀.obj.fields.list f).arr ++ own.flatMap fun blk => (blk.fields.list f).arr)) := by
  obtain ⟨heap', baked, hbaked, b, hb, prjb, hprjb, hsame, e', he', hkey, hlist⟩ :=
    exists_baked_of_buildconfigs h.copiedTo_eq_nil hrun hsln hprj he
  obtain ⟨sln₀, hsln₀, prj₀, hprj₀, hsame', above, own, happlies, base, plt, hbase, hfixed⟩ :=
    exists_applies hbaked hb hprjb he'
  refine ⟨sln₀, hsln₀, prj₀, hprj₀, ?_, above, own, hkey ▸ happlies, ?_⟩
  · rw [← hsame, hsame']
    rfl
  · have hinherited : inheritedItems (some base) f =
        fresh [] (ownItems (prepareSolution env sln₀).obj above f) := by
      rw [inheritedItems, Option.elim_some, hbase, h.arr_mergedFields]
      rfl
    rw [hlist, h.arr_fixedFields hfixed, h.arr_mergedFields, hinherited, fresh_fresh,
      h.ownItems_prepareSolution, h.ownItems_prepareProject]

end Plain

namespace Script

section Mentions

variable {f : Field}

theorem arr_list (hf : f.IsPlain) (c : Fields) : (c.list f).arr = f.fieldKind.values [] (c f) := by
  have hlist : ∀ (k : FieldKind) (o : Option k.Val), k = .list →
      ((k.tbl o).getD Tbl.empty).arr = k.values [] o := by
    intro k o hk
    subst hk
    rfl
  exact hlist f.fieldKind (c f) hf.1

theorem history_container (hf : f.scope = .config) (c : ContainerRef) (s : Session)
    (calls : List (Surroundings × Call)) : history (.container c) f [] s calls = [] := by
  induction calls generalizing s with
  | nil => rfl
  | cons call calls ih =>
      rw [history, ih, List.append_nil]
      obtain ⟨e, d | ⟨g, arg⟩⟩ := call
      · rfl
      · rw [reaches, if_neg]
        rintro ⟨rfl, ht⟩
        rw [hf, Session.getobject, Option.map_eq_some_iff] at ht
        obtain ⟨b, -, heq⟩ := ht
        cases heq

theorem addrs_container {st : Script} (h : st.Invariant) (hworded : st.Worded)
    (c : ContainerRef) : (st.container h hworded c).blocks.map Block.addr =
      st.session.blocksOf c := by
  rw [container, List.map_pmap]
  exact List.pmap_eq_self.mpr fun _ _ => rfl

theorem fields_container {st : Script} {h : st.Invariant} {hworded : st.Worded}
    {c : ContainerRef} {blk : Block} (hblk : blk ∈ (st.container h hworded c).blocks) :
    blk.fields = st.fields (.block blk.addr) := by
  obtain ⟨b, hb, rfl⟩ := List.mem_pmap.mp hblk
  rfl

theorem sorted_blocksOf (calls : List (Surroundings × Call)) (c : ContainerRef) :
    ((empty.run calls).session.blocksOf c).Pairwise (· < ·) := by
  have hsorted : ∀ s : Session, s.Sorted → (calls.foldl after s).Sorted := by
    induction calls with
    | nil => exact fun s h => h
    | cons call calls ih =>
        intro s h
        obtain ⟨e, d | ⟨g, arg⟩⟩ := call
        · exact ih _ (h.call e.host d)
        · exact ih _ h
  rw [session_run]
  refine (hsorted empty.session ?_ c).1
  rintro (i | p) <;> exact ⟨.nil, fun b hb => absurd hb List.not_mem_nil⟩

theorem items_eq_mentions (hf : f.IsPlain) (calls : List (Surroundings × Call))
    (hworded : (empty.run calls).Worded) (c : ContainerRef) {blks : List Block}
    (hblks : blks.Sublist
      ((empty.run calls).container (invariant_empty.run calls) hworded c).blocks) :
    (((empty.run calls).container (invariant_empty.run calls) hworded c).fields.list f).arr ++
        (blks.flatMap fun blk => (blk.fields.list f).arr) =
      mentions f calls (blks.map Block.addr) := by
  have htext : f.fieldKind.isText = false := by
    rw [hf.1]
    rfl
  have hblock : ∀ blk ∈ blks, (blk.fields.list f).arr =
      history (.block blk.addr) f [] .empty calls := fun blk hblk => by
    rw [fields_container (hblks.subset hblk), arr_list hf, lists_run calls htext]
  have hcontainer : (((empty.run calls).fields (.container c)).list f).arr = [] := by
    rw [arr_list hf, lists_run calls htext, history_container hf.2.1]
  have haddrs : (blks.map Block.addr).Pairwise (· < ·) := by
    have hsub := hblks.map Block.addr
    rw [addrs_container] at hsub
    exact (sorted_blocksOf calls c).sublist hsub
  rw [← flatMap_history hf.2.1 haddrs, List.flatMap_map, container, hcontainer, List.nil_append]
  exact List.flatMap_congr hblock

def definesOf (session : List BakedSolution) : List (Str × List Str) :=
  session.flatMap fun sln => sln.projects.flatMap fun prj =>
    prj.configs.map fun e => (e.1, (e.2.fields.list .defines).arr)

theorem worded_sampleScript : (empty.run sampleScript).Worded := by decide +kernel

def sampleSession : List Solution :=
  (empty.run sampleScript).solutions (invariant_empty.run sampleScript) worded_sampleScript

theorem definesOf_sampleScript :
    (buildconfigs .gmake sampleSession (empty.run sampleScript).heap).toOption.map definesOf =
    some [([], ["SUITE".toList, "TOOL".toList]),
      ("Debug".toList, ["SUITE".toList, "TOOL".toList, "DEBUG".toList]),
      ("Release".toList, ["SUITE".toList, "TOOL".toList])] := by
  decide +kernel

end Mentions

end Script

end Puremake
