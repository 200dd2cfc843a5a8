import Puremake.Api.Session
import Mathlib.Data.List.Induction

/-!
# Opening a usage project again

`usage` looks at the project that has the name: when this is a usage project, or refers to
one, the call is meant to make it current again. The function that is called to choose
between the two is not defined, so only the first call for a name returns.
-/

namespace Puremake

namespace Session

/-- What a call of `project`, `usage` or `configuration` can do to a session: nothing, add
a block to the current container, make a project of the current solution current, or make a
new one. -/
inductive Change (host : Host) (s : Session) : Session → Prop
  | same : Change host s s
  | block (c : ContainerRef) (words : List (Option Str)) :
      s.currentContainer = some c → Change host s (s.addBlock c (newBlock words))
  | opened (i : ℕ) (name : Str) (usage : Bool) (p : ℕ) :
      s.currentSolution = some i → s.IsProject i name usage p →
      Change host s (s.activate (.project p)).1
  | created (i : ℕ) (name : Str) (usage : Bool) :
      s.currentSolution = some i → (∀ q, ¬ s.IsProject i name usage q) →
      Change host s ((s.createproject host name i usage).1.activate (.project s.projectCount)).1

def Call.IsLocal : Call → Prop
  | .solution _ => False
  | .project _ | .usage _ | .configuration _ => True

/-- A project that refers to a usage project has its name, in the same solution. -/
def Referring (s : Session) : Prop :=
  ∀ p < s.projectCount, ∀ q, (s.projects p).usageProj = some q →
    s.IsProject (s.projects p).solution (s.projects p).name true q

/-- `usage(name)` returns a usage project of the solution with this name and makes it
current; one that is there already is returned, and no project is added. -/
def OpensUsage (host : Host) (s : Session) (i : ℕ) (name : Str) : Prop :=
  ∃ p, (s.usage host (some name)).2 = .ok (.container (.project p)) ∧
    (s.usage host (some name)).1.currentContainer = some (.project p) ∧
    (s.usage host (some name)).1.IsProject i name true p ∧
    ∀ q, s.IsProject i name true q →
      p = q ∧ (s.usage host (some name)).1.projectCount = s.projectCount

/-- Between two calls of `usage(name)` there are some calls in the same solution, and both
calls return the same project. -/
def ReopensUsage (host : Host) (s : Session) (name : Str) (calls : List Call) : Prop :=
  ∃ p, (s.usage host (some name)).2 = .ok p ∧
    ((calls.foldl (call host) (s.usage host (some name)).1).usage host (some name)).2 = .ok p

section Change

variable {host : Host} {s s' : Session}

theorem activate_eq (c : ContainerRef) :
    (s.activate c).1 = ({ s with currentContainer := some c }).addBlock c (newBlock []) := rfl

theorem isProject_activate (c : ContainerRef) {i : ℕ} {name : Str} {usage : Bool} {p : ℕ} :
    (s.activate c).1.IsProject i name usage p ↔ s.IsProject i name usage p := by
  rw [activate_eq, isProject_addBlock]
  exact Iff.rfl

theorem currentSolution_addBlock (c : ContainerRef) (blk : BlockObj) :
    (s.addBlock c blk).currentSolution = s.currentSolution := by
  rw [currentSolution, currentSolution, addBlock_currentContainer]
  split
  · rename_i p _
    rw [(addBlock_project c blk p).2.1]
  · rfl
  · rfl

theorem currentSolution_activate {p : ℕ} :
    (s.activate (.project p)).1.currentSolution = some (s.projects p).solution := by
  rw [activate_eq, currentSolution_addBlock]
  rfl

/-- A usage project that is there already cannot be opened, and any other is made. -/
theorem usage_named (h : s.Invariant) (hr : s.Referring) {i : ℕ}
    (hsln : s.currentSolution = some i) (name : Str) :
    (∃ q, s.IsProject i name true q) ∧ s.usage host (some name) = (s, .error .callNil) ∨
      (∀ q, ¬ s.IsProject i name true q) ∧ s.usage host (some name) =
        (s.createproject host name i true).1.activate (.project s.projectCount) := by
  have hlt := lt_of_currentSolution h hsln
  rw [Session.usage, hsln]
  cases hslot : (s.solutions i).named.lookup name with
  | none =>
      refine .inr ⟨fun q hq => ?_, by simp only [hslot]; rfl⟩
      have hregular : ∀ r, ¬ s.IsProject i name false r := by
        intro r hr
        have hlookup := (h.named i hlt name r).mpr (.inl hr)
        rw [hslot] at hlookup
        cases hlookup
      have hlookup := (h.named i hlt name q).mpr (.inr ⟨hq, hregular⟩)
      rw [hslot] at hlookup
      cases hlookup
  | some p =>
      simp only [hslot]
      rcases (h.named i hlt name p).mp hslot with hp | ⟨hp, -⟩
      · cases hpaired : (s.projects p).usageProj with
        | none =>
            refine .inr ⟨fun q hq => ?_, by rw [if_pos ⟨hp.2.2.2, rfl⟩]; rfl⟩
            have hq' := h.paired i hlt name p q hp hq
            rw [hpaired] at hq'
            cases hq'
        | some q =>
            have hq := hr p hp.1 q hpaired
            rw [hp.2.1, hp.2.2.1] at hq
            refine .inl ⟨⟨q, hq⟩, if_neg ?_⟩
            exact fun hfree => absurd hfree.2 (Option.some_ne_none q)
      · refine .inl ⟨⟨p, hp⟩, if_neg ?_⟩
        rw [hp.2.2.2]
        exact fun hfree => absurd hfree.1 (by decide)

/-- A regular project that is there already is opened, and any other is made. -/
theorem project_named (h : s.Invariant) {i : ℕ} (hsln : s.currentSolution = some i) (name : Str) :
    (∃ p, s.IsProject i name false p ∧
        s.project host (some name) = s.activate (.project p)) ∨
      (∀ q, ¬ s.IsProject i name false q) ∧ s.project host (some name) =
        (s.createproject host name i false).1.activate (.project s.projectCount) := by
  have hlt := lt_of_currentSolution h hsln
  rw [Session.project, hsln]
  cases hslot : (s.solutions i).named.lookup name with
  | none =>
      refine .inr ⟨fun q hq => ?_, by simp only [hslot]; rfl⟩
      have hlookup := (h.named i hlt name q).mpr (.inl hq)
      rw [hslot] at hlookup
      cases hlookup
  | some p =>
      simp only [hslot]
      rcases (h.named i hlt name p).mp hslot with hp | ⟨hp, hnone⟩
      · refine .inl ⟨p, hp, if_neg ?_⟩
        rw [hp.2.2.2]
        decide
      · exact .inr ⟨hnone, by rw [if_pos hp.2.2.2]; rfl⟩

theorem change_of_call (h : s.Invariant) (hr : s.Referring) {c : Call} (hc : c.IsLocal) :
    Change host s (s.call host c) := by
  cases c with
  | solution name => exact absurd hc id
  | project name =>
      cases name with
      | none =>
          rw [call, Session.project]
          split <;> exact .same
      | some name =>
          cases hsln : s.currentSolution with
          | none =>
              rw [call, Session.project, hsln]
              exact .same
          | some i =>
              rw [call]
              rcases project_named h hsln name with ⟨p, hp, heq⟩ | ⟨hnone, heq⟩
              · rw [heq]
                exact .opened i name false p hsln hp
              · rw [heq]
                exact .created i name false hsln hnone
  | usage name =>
      cases name with
      | none =>
          rw [call, Session.usage]
          split <;> exact .same
      | some name =>
          cases hsln : s.currentSolution with
          | none =>
              rw [call, Session.usage, hsln]
              exact .same
          | some i =>
              rw [call]
              rcases usage_named h hr hsln name with ⟨-, heq⟩ | ⟨hnone, heq⟩
              · rw [heq]
                exact .same
              · rw [heq]
                exact .created i name true hsln hnone
  | configuration terms =>
      cases terms with
      | none => exact .same
      | some terms =>
          simp only [call, Session.configuration]
          cases hcontainer : s.currentContainer with
          | none => exact .same
          | some c => exact .block c terms.flatten hcontainer

theorem Change.isProject (h : Change host s s') {i : ℕ} {name : Str} {usage : Bool} {p : ℕ}
    (hp : s.IsProject i name usage p) : s'.IsProject i name usage p := by
  cases h with
  | same => exact hp
  | block c words _ => exact (isProject_addBlock c _).mpr hp
  | opened i name usage q _ _ => exact (isProject_activate _).mpr hp
  | created i name usage _ _ =>
      rw [isProject_activate, isProject_createproject]
      exact .inl hp

theorem Change.currentSolution (h : Change host s s') :
    s'.currentSolution = s.currentSolution := by
  cases h with
  | same => rfl
  | block c words _ => exact currentSolution_addBlock c _
  | opened i name usage p hsln hp => rw [currentSolution_activate, hsln, hp.2.1]
  | created i name usage hsln _ =>
      rw [currentSolution_activate, hsln, (createproject_new host s name i usage).2.1]

theorem Referring.addBlock (hr : s.Referring) (c : ContainerRef) (blk : BlockObj) :
    (s.addBlock c blk).Referring := by
  intro p hp q hq
  obtain ⟨hname, hsolution, -, hpaired⟩ := addBlock_project (s := s) c blk p
  rw [addBlock_projectCount] at hp
  rw [hpaired] at hq
  rw [isProject_addBlock, hname, hsolution]
  exact hr p hp q hq

theorem Referring.activate (hr : s.Referring) (c : ContainerRef) : (s.activate c).1.Referring :=
  Referring.addBlock (s := { s with currentContainer := some c }) hr c _

/-- A new regular project refers to the usage project that had the name, and a new usage
project is referred to by the regular one. -/
theorem Referring.createproject (hr : s.Referring) (h : s.Invariant) {i : ℕ}
    (hlt : i < s.solutionCount) {name : Str} {usage : Bool}
    (hnew : ∀ q, ¬ s.IsProject i name usage q) :
    (s.createproject host name i usage).1.Referring := by
  intro p hp q hq
  rw [isProject_createproject]
  by_cases hself : p = s.projectCount
  · subst hself
    obtain ⟨hname, hsolution, -⟩ := createproject_new host s name i usage
    rw [hname, hsolution]
    cases usage with
    | true =>
        simp only [Session.createproject] at hq
        cases hslot : (s.solutions i).named.lookup name with
        | none => simp [hslot] at hq
        | some r =>
            have hr' : r < s.projectCount := by
              rcases (h.named i hlt name r).mp hslot with hr' | hr'
              · exact hr'.1
              · exact hr'.1.1
            simp [hslot, Nat.ne_of_gt hr'] at hq
    | false =>
        rw [createproject_usageProj_new] at hq
        exact .inl (((h.named i hlt name q).mp hq).resolve_left (hnew q)).1
  · obtain ⟨hname, hsolution, -⟩ := createproject_old host s name i usage hself
    rw [createproject_usageProj_old host s name i usage hself] at hq
    rw [hname, hsolution]
    split at hq
    · rename_i hslot
      obtain ⟨rfl, hslot⟩ := hslot
      obtain rfl := Option.some.inj hq
      refine .inr ⟨rfl, ?_, ?_, rfl⟩
      · rcases (h.named i hlt name p).mp hslot with hp' | hp'
        · exact hp'.2.1
        · exact hp'.1.2.1
      · rcases (h.named i hlt name p).mp hslot with hp' | hp'
        · exact hp'.2.2.1
        · exact hp'.1.2.2.1
    · exact .inl (hr p (Nat.lt_of_le_of_ne (Nat.lt_succ_iff.mp hp) hself) q hq)

theorem Change.referring (hchange : Change host s s') (h : s.Invariant) (hr : s.Referring) :
    s'.Referring := by
  cases hchange with
  | same => exact hr
  | block c words _ => exact hr.addBlock c _
  | opened i name usage p _ _ => exact hr.activate _
  | created i name usage hsln hnew =>
      exact (hr.createproject h (lt_of_currentSolution h hsln) hnew).activate _

theorem Referring.call (hr : s.Referring) (h : s.Invariant) (c : Call) :
    (s.call host c).Referring := by
  cases c with
  | solution name =>
      cases name with
      | none => exact hr
      | some name =>
          rw [Session.call, Session.solution]
          cases s.list.lookup name with
          | some i => exact hr.activate _
          | none => exact Referring.activate (s := (s.newSolution host name).1) hr _
  | project name => exact (change_of_call h hr (c := .project name) trivial).referring h hr
  | usage name => exact (change_of_call h hr (c := .usage name) trivial).referring h hr
  | configuration terms =>
      exact (change_of_call h hr (c := .configuration terms) trivial).referring h hr

theorem reachable (host : Host) (calls : List Call) :
    (calls.foldl (Session.call host) empty).Invariant ∧
      (calls.foldl (Session.call host) empty).Referring := by
  induction calls using List.reverseRecOn with
  | nil => exact ⟨invariant_empty, fun p hp => absurd hp (Nat.not_lt_zero p)⟩
  | append_singleton calls c ih =>
      rw [List.foldl_append, List.foldl_cons, List.foldl_nil]
      exact ⟨ih.1.call c, ih.2.call ih.1 c⟩

/-- In a run of local calls the solution stays, and so do its projects. -/
theorem run_local (h : s.Invariant) (hr : s.Referring) {calls : List Call}
    (hlocal : ∀ c ∈ calls, c.IsLocal) :
    (calls.foldl (Session.call host) s).Invariant ∧
      (calls.foldl (Session.call host) s).Referring ∧
      (calls.foldl (Session.call host) s).currentSolution = s.currentSolution ∧
      ∀ i name usage p, s.IsProject i name usage p →
        (calls.foldl (Session.call host) s).IsProject i name usage p := by
  induction calls generalizing s with
  | nil => exact ⟨h, hr, rfl, fun _ _ _ _ hp => hp⟩
  | cons c calls ih =>
      have hchange : Change host s (s.call host c) :=
        change_of_call h hr (hlocal c List.mem_cons_self)
      obtain ⟨h', hr', hsln, hkeep⟩ := ih (h.call c) (hchange.referring h hr)
        fun d hd => hlocal d (List.mem_cons_of_mem c hd)
      exact ⟨h', hr', hsln.trans hchange.currentSolution, fun i name usage p hp =>
        hkeep i name usage p (hchange.isProject hp)⟩

end Change

section Result

variable {host : Host}

theorem opensUsage_iff {s : Session} (h : s.Invariant) (hr : s.Referring) {i : ℕ}
    (hsln : s.currentSolution = some i) (name : Str) :
    OpensUsage host s i name ↔ ∀ q, ¬ s.IsProject i name true q := by
  rcases usage_named h hr hsln name with ⟨⟨q, hq⟩, heq⟩ | ⟨hnone, heq⟩
  · constructor
    · rintro ⟨p, hp, -⟩
      rw [heq] at hp
      cases hp
    · exact fun hnone => absurd hq (hnone q)
  · refine ⟨fun _ => hnone, fun _ => ⟨s.projectCount, ?_, ?_, ?_, ?_⟩⟩
    · rw [heq]
      rfl
    · rw [heq, activate_eq, addBlock_currentContainer]
    · rw [heq, isProject_activate, isProject_createproject]
      exact .inr ⟨rfl, rfl, rfl, rfl⟩
    · exact fun q hq => absurd hq (hnone q)

theorem not_reopensUsage {s : Session} (h : s.Invariant) (hr : s.Referring) {i : ℕ}
    (hsln : s.currentSolution = some i) (name : Str) {calls : List Call}
    (hlocal : ∀ c ∈ calls, c.IsLocal) : ¬ ReopensUsage host s name calls := by
  rintro ⟨p, hfirst, hsecond⟩
  have hchange : Change host s (s.usage host (some name)).1 :=
    change_of_call h hr (c := .usage (some name)) trivial
  have hmade : ∃ q, (s.usage host (some name)).1.IsProject i name true q := by
    rcases usage_named h hr hsln name with ⟨-, heq⟩ | ⟨-, heq⟩
    · rw [heq] at hfirst
      cases hfirst
    · rw [heq]
      refine ⟨s.projectCount, ?_⟩
      rw [isProject_activate, isProject_createproject]
      exact .inr ⟨rfl, rfl, rfl, rfl⟩
  obtain ⟨q, hq⟩ := hmade
  obtain ⟨h', hr', hsln', hkeep⟩ :=
    run_local (h.usage (some name)) (hchange.referring h hr) hlocal
  rw [hchange.currentSolution, hsln] at hsln'
  rcases usage_named h' hr' hsln' name with ⟨-, heq⟩ | ⟨hnone, -⟩
  · rw [heq] at hsecond
    cases hsecond
  · exact hnone q (hkeep i name true q hq)

/-- In every session with a solution, `usage(name)` opens the usage project exactly when there
is none of the name, and a second call never returns. -/
theorem usage_reopens_iff (host : Host) (calls : List Call) (i : ℕ)
    (hsln : (calls.foldl (call host) empty).currentSolution = some i) (name : Str) :
    (OpensUsage host (calls.foldl (call host) empty) i name ↔
        ∀ q, ¬ (calls.foldl (call host) empty).IsProject i name true q) ∧
      ∀ between : List Call, (∀ c ∈ between, c.IsLocal) →
        ¬ ReopensUsage host (calls.foldl (call host) empty) name between := by
  obtain ⟨h, hr⟩ := reachable host calls
  exact ⟨opensUsage_iff h hr hsln name, fun between hlocal =>
    not_reopensUsage h hr hsln name hlocal⟩

def exampleHost : Host := ⟨"/home".toList, fun _ => []⟩

theorem usage_reopens_solution :
    OpensUsage exampleHost ([Call.solution (some ['S'])].foldl (call exampleHost) empty) 0 ['U'] :=
  (usage_reopens_iff exampleHost [.solution (some ['S'])] 0 rfl ['U']).1.mpr
    fun q hq => absurd hq.1 (Nat.not_lt_zero q)

/-- The second of two calls raises an error. -/
theorem not_opensUsage_again :
    ([Call.solution (some ['S']), .usage (some ['U'])].foldl (call exampleHost)
        empty).currentSolution = some 0 ∧
      ¬ OpensUsage exampleHost ([Call.solution (some ['S']), .usage (some ['U'])].foldl
        (call exampleHost) empty) 0 ['U'] := by
  refine ⟨rfl, ?_⟩
  rintro ⟨p, hp, -⟩
  have heq : (([Call.solution (some ['S']), .usage (some ['U'])].foldl (call exampleHost)
      empty).usage exampleHost (some ['U'])).2 = .error .callNil := rfl
  rw [heq] at hp
  cases hp

end Result

end Session

end Puremake
