import Puremake.Bake.Brackets
import Puremake.Bake.Script
import Puremake.Bake.Total

/-!
# Every script can be baked

`solution`, `project` and `usage` open an object with a block for all configurations, an object
keeps the fields that it is made with, and the platforms of a solution are checked. So whatever
calls a script makes, and also when some of them raise errors, baking finds what it looks up. It
can only fail at a word of a configuration block that is no pattern.
-/

namespace Puremake

open FoldRun

namespace Session

section Opened

variable {s : Session} {host : Host}

/-- The first block of a container was declared without words. -/
def OpenedAt (s : Session) (c : ContainerRef) : Prop :=
  ∃ b rest, s.blocksOf c = b :: rest ∧ b < s.blockCount ∧ (s.blocks b).terms = []

def Opened (s : Session) : Prop := ∀ c, s.Made c → s.OpenedAt c

theorem OpenedAt.addBlock {d : ContainerRef} (h : s.OpenedAt d) (c : ContainerRef)
    (blk : BlockObj) : (s.addBlock c blk).OpenedAt d := by
  obtain ⟨b, rest, hblocks, hb, hterms⟩ := h
  refine ⟨b, rest ++ if d = c then [s.blockCount] else [], ?_, ?_, ?_⟩
  · rw [blocksOf_addBlock, hblocks, List.cons_append]
  · rw [addBlock_blockCount]
    exact Nat.lt_succ_of_lt hb
  · rw [addBlock_blocks, Function.update_of_ne (Nat.ne_of_lt hb)]
    exact hterms

theorem openedAt_addBlock_self {c : ContainerRef} (h : s.blocksOf c = []) :
    (s.addBlock c (newBlock [])).OpenedAt c := by
  refine ⟨s.blockCount, [], ?_, ?_, ?_⟩
  · rw [blocksOf_addBlock, h, if_pos rfl, List.nil_append]
  · rw [addBlock_blockCount]
    exact Nat.lt_succ_self _
  · rw [addBlock_blocks, Function.update_self]
    rfl

theorem made_addBlock {c d : ContainerRef} {blk : BlockObj} :
    (s.addBlock c blk).Made d ↔ s.Made d := by
  cases d with
  | solution i => rw [Made, Made, addBlock_solutionCount]
  | project p => rw [Made, Made, addBlock_projectCount]

/-- A container that has no blocks yet is opened when it is activated. -/
theorem Opened.activate {c : ContainerRef} (h : ∀ d, s.Made d → d ≠ c → s.OpenedAt d)
    (hc : s.blocksOf c = [] ∨ s.OpenedAt c) : (s.activate c).1.Opened := by
  let s₀ : Session := { s with currentContainer := some c }
  have hblocks : ∀ d, s₀.blocksOf d = s.blocksOf d := fun d => by cases d <;> rfl
  have hsame : ∀ d, s.OpenedAt d → s₀.OpenedAt d := fun d hd => by
    rw [OpenedAt, hblocks d]
    exact hd
  have hmade : ∀ d, s₀.Made d → s.Made d := fun d hd => by
    cases d <;> exact hd
  show (s₀.addBlock c (newBlock [])).Opened
  intro d hd
  by_cases heq : d = c
  · subst heq
    rcases hc with hnil | hopened
    · exact openedAt_addBlock_self ((hblocks d).trans hnil)
    · exact (hsame d hopened).addBlock d _
  · exact (hsame d (h d (hmade d (made_addBlock.mp hd)) heq)).addBlock c _

theorem call_cases (h : s.Invariant) {P : Session → Prop} (hsame : P s)
    (hblock : ∀ c words, P (s.addBlock c (newBlock words)))
    (hactivate : ∀ c, s.Made c → P (s.activate c).1)
    (hproject : ∀ name sln isUsage, P ((s.createproject host name sln isUsage).1.activate
      (.project (s.createproject host name sln isUsage).2)).1)
    (hsolution : ∀ name, P ((s.newSolution host name).1.activate
      (.solution (s.newSolution host name).2)).1)
    (c : Call) : P (s.call host c) := by
  cases c with
  | configuration terms =>
      cases terms with
      | none => exact hsame
      | some terms =>
          rw [call, Session.configuration]
          cases s.currentContainer with
          | none => exact hsame
          | some c => exact hblock c _
  | solution name =>
      cases name with
      | none => exact hsame
      | some name =>
          rw [call, Session.solution]
          cases hi : s.list.lookup name with
          | some i => exact hactivate _ (h.list name i hi)
          | none => exact hsolution name
  | project name =>
      cases name with
      | none =>
          rw [call, Session.project.eq_def]
          rcases s.currentContainer with - | (i | p) <;> exact hsame
      | some name =>
          rw [call, Session.project]
          cases hsln : s.currentSolution with
          | none => exact hsame
          | some sln =>
              cases hp : (s.solutions sln).named.lookup name with
              | none => simpa only [hp] using hproject name sln false
              | some p =>
                  have hmade : p < s.projectCount := by
                    rcases (h.named sln (lt_of_currentSolution h hsln) name p).mp hp with hp | hp
                    · exact hp.1
                    · exact hp.1.1
                  simp only [hp]
                  split
                  · exact hproject name sln false
                  · exact hactivate (.project p) hmade
  | usage name =>
      cases name with
      | none =>
          rw [call, Session.usage.eq_def]
          rcases s.currentContainer with - | (i | p) <;> exact hsame
      | some name =>
          rw [call, Session.usage]
          cases s.currentSolution with
          | none => exact hsame
          | some sln =>
              cases hp : (s.solutions sln).named.lookup name with
              | none => simpa only [hp] using hproject name sln true
              | some p =>
                  simp only [hp]
                  split
                  · exact hproject name sln true
                  · exact hsame

theorem openedAt_createproject (host : Host) (name : Str) (sln : ℕ) (isUsage : Bool)
    {d : ContainerRef} (h : s.OpenedAt d) (hd : d ≠ .project s.projectCount) :
    (s.createproject host name sln isUsage).1.OpenedAt d := by
  have hblocks : (s.createproject host name sln isUsage).1.blocksOf d = s.blocksOf d := by
    cases d with
    | solution i => exact (createproject_solution host s name sln isUsage i).2
    | project p =>
        exact (createproject_old host s name sln isUsage fun hp => hd (hp ▸ rfl)).2.2.2
  rw [OpenedAt, hblocks]
  exact h

theorem openedAt_newSolution (host : Host) (name : Str) {d : ContainerRef} (h : s.OpenedAt d)
    (hd : d ≠ .solution s.solutionCount) : (s.newSolution host name).1.OpenedAt d := by
  have hblocks : (s.newSolution host name).1.blocksOf d = s.blocksOf d := by
    cases d with
    | solution i =>
        have hi : i ≠ s.solutionCount := fun hi => hd (congrArg ContainerRef.solution hi)
        exact congrArg SolutionObj.blocks (Function.update_of_ne hi _ s.solutions)
    | project p => rfl
  rw [OpenedAt, hblocks]
  exact h

theorem Opened.call (h : s.Opened) (hinv : s.Invariant) (host : Host) (c : Call) :
    (s.call host c).Opened := by
  refine call_cases hinv h ?_ ?_ ?_ ?_ c
  · intro c words d hd
    exact (h d (made_addBlock.mp hd)).addBlock c _
  · intro c hc
    exact Opened.activate (fun d hd _ => h d hd) (.inr (h c hc))
  · intro name sln isUsage
    refine Opened.activate (fun d hd hne => ?_)
      (.inl (createproject_new host s name sln isUsage).2.2.2)
    refine openedAt_createproject host name sln isUsage (h d ?_) hne
    cases d with
    | solution i => exact hd
    | project p =>
        exact Nat.lt_of_le_of_ne (Nat.lt_succ_iff.mp hd) fun hp => hne (hp ▸ rfl)
  · intro name
    refine Opened.activate (fun d hd hne => ?_) (.inl ?_)
    · refine openedAt_newSolution host name (h d ?_) hne
      cases d with
      | solution i =>
          exact Nat.lt_of_le_of_ne (Nat.lt_succ_iff.mp hd) fun hi => hne (hi ▸ rfl)
      | project p => exact hd
    · exact congrArg SolutionObj.blocks (Function.update_self s.solutionCount _ s.solutions)

end Opened

end Session

section Setter

variable {allowed : Option Allowed} {e : Surroundings}

theorem isSome_setter_of_isSome {k : FieldKind} {arg : k.Arg}
    {set : Option k.Val → Left k.Val} (h : setter allowed e k arg = .ok set)
    {field : Option k.Val} (hfield : field.isSome) : (set field).1.isSome := by
  have hstring : ∀ (allowed : Option Allowed) (value : Option Str) (field : Option Str),
      field.isSome → (setstring allowed value field).1.isSome := by
    intro allowed value field hfield
    cases value with
    | none => exact hfield
    | some value =>
        rw [setstring]
        cases checkvalue value allowed with
        | error err => exact hfield
        | ok v => rfl
  by_cases hk : k.initial.isSome
  · exact isSome_setter hk h field
  · cases k with
    | string =>
        cases arg with
        | other type => cases h
        | nil =>
            cases h
            exact hstring _ _ field hfield
        | value s =>
            cases h
            exact hstring _ _ field hfield
    | path =>
        cases arg with
        | other type => cases h
        | nil =>
            cases h
            exact hstring _ _ field hfield
        | value s =>
            cases h
            exact hstring _ _ field hfield
    | _ => exact absurd rfl hk

end Setter

namespace Script

variable {st : Script}

/-- The objects have the fields that they were made with. -/
def Kept (st : Script) : Prop :=
  ∀ t, st.session.Exists t → Covers (st.session.initialFields t) (st.fields t)

theorem Kept.call (h : st.Kept) (c : Surroundings × Call) : (st.call c).Kept := by
  intro t ht
  by_cases hbefore : st.session.Exists t
  · intro f hf
    have hinitial : (st.call c).session.initialFields t = st.session.initialFields t := by
      rw [session_call]
      exact (keeps_after st.session c).fields t hbefore
    rw [hinitial] at hf
    have hold := h t hbefore f hf
    obtain ⟨e, c | ⟨g, arg⟩⟩ := c
    · rw [session_cases, if_neg fun hmade => hmade.1 hbefore]
      exact hold
    · rcases accessor_cases e g arg t f with ⟨heq, -⟩ | ⟨arg', set, hset, heq, -⟩
      · rw [heq]
        exact hold
      · rw [heq]
        exact isSome_setter_of_isSome hset hold
  · rw [fields_made hbefore ht]
    exact fun f hf => hf

theorem kept_run (calls : List (Surroundings × Call)) : (empty.run calls).Kept := by
  have hrun : ∀ st : Script, st.Kept → (st.run calls).Kept := by
    induction calls with
    | nil => exact fun st h => h
    | cons c calls ih => exact fun st h => ih (st.call c) (h.call c)
  refine hrun empty ?_
  rintro ((i | p) | b) ht <;> exact absurd ht (Nat.not_lt_zero _)

theorem opened_run (calls : List (Surroundings × Call)) :
    (empty.run calls).session.Opened := by
  have hfold : ∀ s : Session, s.Invariant → s.Opened → (calls.foldl after s).Opened := by
    induction calls with
    | nil => exact fun s _ h => h
    | cons c calls ih =>
        intro s hinv h
        obtain ⟨e, c | ⟨g, arg⟩⟩ := c
        · exact ih _ (hinv.call c) (h.call hinv e.host c)
        · exact ih _ hinv h
  rw [session_run]
  refine hfold _ Session.invariant_empty ?_
  rintro (i | p) hc <;> exact absurd hc (Nat.not_lt_zero _)

/-- The error of a script: a word of one of its blocks has a bracket that is not closed. -/
def Malformed (st : Script) (e : BakeError) : Prop :=
  e = .pattern .missingBracket ∧
    ∃ b < st.session.blockCount, ∃ w, some w ∈ (st.session.blocks b).terms ∧ '[' ∈ w

section Container

variable {h : st.Invariant} {hworded : st.Worded} {c : ContainerRef}

theorem raises_container {blk : Block} (hblk : blk ∈ (st.container h hworded c).blocks) :
    blk.Raises st.Malformed := by
  obtain ⟨b, hb, rfl⟩ := List.mem_pmap.mp hblk
  intro ord terms
  refine (ends_iskeywordsmatch _).weaken fun e he => ?_
  obtain ⟨w, hw, heq, hbracket⟩ := he
  obtain ⟨o, ho, rfl⟩ := List.mem_filterMap.mp hw
  exact ⟨heq, b, h.session.blocks c b hb, w, ho, hbracket⟩

theorem opened_container (hopened : st.session.OpenedAt c) :
    (st.container h hworded c).Opened := by
  obtain ⟨b, rest, hblocks, hb, hterms⟩ := hopened
  refine ⟨st.block h hworded b hb, rest.pmap (st.block h hworded) fun b' hb' =>
    h.session.blocks c b' (hblocks ▸ List.mem_cons_of_mem b hb'), ?_, ?_⟩
  · simp only [container, hblocks, List.pmap_cons]
  · rw [block, hterms]
    rfl

end Container

theorem platform_of_run (calls : List (Surroundings × Call)) (t : Holder) {p : Str}
    (hp : p ∈ (((empty.run calls).fields t .platforms).getD Tbl.empty).arr) :
    (platform p).isSome := by
  have hmem : p ∈ history t .platforms [] .empty calls := by
    rw [← lists_run calls rfl]
    exact hp
  have hsettled : Field.platforms.Settled p := settled_of_mem_history (by decide) hmem
  have hkeys := PairsOrder.insertion.mem_enum.mp
    (mem_of_checkvalue (hsettled PairsOrder.insertion []))
  exact lookup_isSome_iff_mem_keys.mpr hkeys

theorem bakeable_run (calls : List (Surroundings × Call))
    (hworded : (empty.run calls).Worded) :
    ∀ sln ∈ (empty.run calls).solutions (invariant_empty.run calls) hworded,
      sln.Bakeable (empty.run calls).Malformed := by
  have hinv := invariant_empty.run calls
  have hopened := opened_run calls
  have hkept := kept_run calls
  intro sln hsln
  obtain ⟨i, hi, rfl⟩ := List.mem_map.mp hsln
  have hi := List.mem_range.mp hi
  refine ⟨⟨?_, ?_⟩, ?_, ?_, ?_⟩
  · show (((empty.run calls).fields (.container (.solution i)) .configurations).map _).isSome
    rw [Option.isSome_map]
    refine hkept (.container (.solution i)) hi .configurations ?_
    rw [Session.initialFields, Fields.set_self]
    rfl
  · exact fun p hp => platform_of_run calls (.container (.solution i)) hp
  · exact opened_container (hopened (.solution i) hi)
  · exact fun blk hblk => raises_container hblk
  · intro prj hprj
    obtain ⟨p, hp, rfl⟩ := List.mem_map.mp hprj
    have hp := ((hinv.session.listed i hi p).mp hp).1
    refine ⟨opened_container (hopened (.project p) hp), ?_, fun blk hblk => raises_container hblk⟩
    refine hkept (.container (.project p)) hp .basedir ?_
    rw [Session.initialFields, Fields.set_of_ne (by decide), Fields.set_self]
    rfl

theorem hasTool_gmake : Env.gmake.HasTool := by
  intro cfg
  rw [gettool]
  split
  · exact ⟨"gcc".toList, rfl, rfl⟩
  · exact ⟨"dotnet".toList, rfl, rfl⟩

def brokenScript : List (Surroundings × Call) :=
  [.session (.solution (some "Suite".toList)),
    .field .configurations (some (.list [.text "Debug".toList])),
    .session (.configuration (some (.string "Debug[".toList)))].map fun c =>
      (scriptIn ["home"], c)

example : (buildconfigs Env.gmake
    ((empty.run brokenScript).solutions (invariant_empty.run brokenScript) (by decide +kernel))
      (empty.run brokenScript).heap).toOption.isNone := by decide +kernel

end Script

end Puremake
