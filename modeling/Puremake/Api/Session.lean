import Puremake.Bake.Merge
import Mathlib.Data.List.TakeWhile

/-!
# Solutions, projects and blocks of a script

The functions `solution`, `project`, `usage` and `configuration` build the
objects that a script works on. Projects are listed in their solution by
position and by name; a usage project and a regular project may share a name,
and then the regular one holds the name and refers to the other. The container
and the configuration that the next call works on are globals.

Objects live in three heaps and are referred to by their addresses. A call gives
the session that it leaves behind, also when it raises an error.
-/

namespace Puremake

/-- A value that is given to `configuration`. -/
inductive Value
  | string (s : Str)
  | table (items : List Value)
  | other

mutual

/-- `table.flatten`: the strings of a value, with `none` for what is neither a
string nor a table. -/
def Value.flatten : Value → List (Option Str)
  | .string s => [some s]
  | .table items => Value.flattenAll items
  | .other => [none]

def Value.flattenAll : List Value → List (Option Str)
  | [] => []
  | v :: items => v.flatten ++ Value.flattenAll items

end

/-- A solution as `premake.solution.new` makes it: its projects by position and by
name, and its blocks. -/
structure SolutionObj where
  name : Str
  basedir : Str
  projects : List ℕ
  named : List (Str × ℕ)
  blocks : List ℕ

/-- A project as `createproject` makes it. -/
structure ProjectObj where
  name : Str
  solution : ℕ
  basedir : Str
  uuid : Str
  usage : Bool
  usageProj : Option ℕ
  blocks : List ℕ

/-- A configuration block as `configuration` makes it: the words that it was declared
with, and the fields, which are set up after the keywords. -/
structure BlockObj where
  terms : List (Option Str)
  keywords : List Str
  fields : Fields

/-- What `premake.CurrentContainer` refers to. -/
inductive ContainerRef
  | solution (i : ℕ)
  | project (p : ℕ)
  deriving DecidableEq, Repr

/-- The objects that scripts have made so far, and the current ones. -/
structure Session where
  solutions : ℕ → SolutionObj
  solutionCount : ℕ
  /-- `premake.solution.list` by name -/
  list : List (Str × ℕ)
  projects : ℕ → ProjectObj
  projectCount : ℕ
  blocks : ℕ → BlockObj
  blockCount : ℕ
  currentContainer : Option ContainerRef
  currentConfiguration : Option ℕ

inductive ApiError
  | noContainer
  | noSolution
  | notAString
  | callNil
  deriving DecidableEq, Repr

def ApiError.message : ApiError → Str
  | .noContainer => "no active solution or project".toList
  | .noSolution => "no active solution".toList
  | .notAString => "attempt to index local 'pattern'".toList
  | .callNil => "attempt to call global 'iff' (a nil value)".toList

inductive Returned
  | nil
  | container (c : ContainerRef)
  | configuration (b : ℕ)
  deriving DecidableEq, Repr

abbrev Outcome := Session × Except ApiError Returned

/-- What `os.getcwd()` and `os.uuid()` give, the latter for the project with an
address. -/
structure Host where
  cwd : Str
  uuid : ℕ → Str

namespace Session

def empty : Session where
  solutions := fun _ => ⟨[], [], [], [], []⟩
  solutionCount := 0
  list := []
  projects := fun _ => ⟨[], 0, [], [], false, none, []⟩
  projectCount := 0
  blocks := fun _ => ⟨[], [], Fields.empty⟩
  blockCount := 0
  currentContainer := none
  currentConfiguration := none

def blocksOf (s : Session) : ContainerRef → List ℕ
  | .solution i => (s.solutions i).blocks
  | .project p => (s.projects p).blocks

/-- A new block at the end of the blocks of a container, which becomes the current
configuration. -/
def addBlock (s : Session) (c : ContainerRef) (blk : BlockObj) : Session :=
  let s := { s with
    blocks := Function.update s.blocks s.blockCount blk
    blockCount := s.blockCount + 1
    currentConfiguration := some s.blockCount }
  match c with
  | .solution i => { s with
      solutions := Function.update s.solutions i { s.solutions i with
        blocks := (s.solutions i).blocks ++ [s.blockCount - 1] } }
  | .project p => { s with
      projects := Function.update s.projects p { s.projects p with
        blocks := (s.projects p).blocks ++ [s.blockCount - 1] } }

/-- The block that `configuration` makes of some words. The keywords are made up to
the first word that is no string, which raises an error. -/
def newBlock (words : List (Option Str)) : BlockObj where
  terms := words
  keywords := ((words.takeWhile Option.isSome).filterMap id).map fun word =>
    Str.lower (Path.wildcards word)
  fields := if none ∈ words then Fields.empty else fun f => f.fieldKind.initial

def configuration (s : Session) (terms : Option Value) : Outcome :=
  match terms with
  | none => (s, .ok (s.currentConfiguration.elim .nil .configuration))
  | some terms =>
      match s.currentContainer with
      | none => (s, .error .noContainer)
      | some c =>
          let words := terms.flatten
          (s.addBlock c (newBlock words),
            if none ∈ words then .error .notAString else .ok (.configuration s.blockCount))

/-- An empty, global configuration is added to the current container, which is
returned. -/
def activate (s : Session) (c : ContainerRef) : Outcome :=
  let s := { s with currentContainer := some c }
  let (s, result) := s.configuration (some (.table []))
  (s, result.map fun _ => .container c)

def currentSolution (s : Session) : Option ℕ :=
  match s.currentContainer with
  | some (.project p) => some (s.projects p).solution
  | some (.solution i) => some i
  | none => none

def createproject (host : Host) (s : Session) (name : Str) (sln : ℕ) (isUsage : Bool) :
    Session × ℕ :=
  let prj := s.projectCount
  let slot := (s.solutions sln).named.lookup name
  let obj : ProjectObj := ⟨name, sln, host.cwd, host.uuid prj, isUsage,
    if isUsage then none else slot, []⟩
  let projects := Function.update s.projects prj obj
  let projects := if isUsage then
      slot.elim projects fun p => Function.update projects p
        { projects p with usageProj := some prj }
    else projects
  let named := if isUsage ∧ slot.isSome then (s.solutions sln).named
    else assign name prj (s.solutions sln).named
  ({ s with
    projects
    projectCount := s.projectCount + 1
    solutions := Function.update s.solutions sln { s.solutions sln with
      projects := (s.solutions sln).projects ++ [prj]
      named } }, prj)

def project (host : Host) (s : Session) (name : Option Str) : Outcome :=
  match name with
  | none =>
      match s.currentContainer with
      | some (.project p) =>
          (s, .ok (if (s.projects p).usage then .nil else .container (.project p)))
      | _ => (s, .ok .nil)
  | some name =>
      match s.currentSolution with
      | none => (s, .error .noSolution)
      | some sln =>
          match (s.solutions sln).named.lookup name with
          | some p =>
              if (s.projects p).usage then
                let (s, prj) := s.createproject host name sln false
                s.activate (.project prj)
              else s.activate (.project p)
          | none =>
              let (s, prj) := s.createproject host name sln false
              s.activate (.project prj)

/-- `usage`. For a usage project that is there already a function that is not defined
is called. -/
def usage (host : Host) (s : Session) (name : Option Str) : Outcome :=
  match name with
  | none =>
      match s.currentContainer with
      | some (.project p) =>
          (s, .ok (if (s.projects p).usage then .container (.project p) else .nil))
      | _ => (s, .ok .nil)
  | some name =>
      match s.currentSolution with
      | none => (s, .error .noSolution)
      | some sln =>
          match (s.solutions sln).named.lookup name with
          | some p =>
              if (s.projects p).usage = false ∧ (s.projects p).usageProj = none then
                let (s, prj) := s.createproject host name sln true
                s.activate (.project prj)
              else (s, .error .callNil)
          | none =>
              let (s, prj) := s.createproject host name sln true
              s.activate (.project prj)

/-- `premake.solution.new` -/
def newSolution (host : Host) (s : Session) (name : Str) : Session × ℕ :=
  ({ s with
    solutions := Function.update s.solutions s.solutionCount ⟨name, host.cwd, [], [], []⟩
    solutionCount := s.solutionCount + 1
    list := assign name s.solutionCount s.list }, s.solutionCount)

def solution (host : Host) (s : Session) (name : Option Str) : Outcome :=
  match name with
  | none =>
      (s, .ok (match s.currentContainer with
        | some (.project p) => .container (.solution (s.projects p).solution)
        | some c => .container c
        | none => .nil))
  | some name =>
      match s.list.lookup name with
      | some i => s.activate (.solution i)
      | none =>
          let (s, i) := s.newSolution host name
          s.activate (.solution i)

end Session

namespace Session

/-- The project objects of a solution with a name. -/
def IsProject (s : Session) (i : ℕ) (name : Str) (usage : Bool) (p : ℕ) : Prop :=
  p < s.projectCount ∧ (s.projects p).solution = i ∧ (s.projects p).name = name ∧
    (s.projects p).usage = usage

/-- The container refers to an object that has been made. -/
def Made (s : Session) : ContainerRef → Prop
  | .solution i => i < s.solutionCount
  | .project p => p < s.projectCount

/-- What holds of the projects of a session: a solution lists every project that
belongs to it, once; for a name there is at most one regular project and at most one
for usage; the regular project has the name, or else the usage project; and the
regular project refers to the usage project with its name. -/
structure Linked (s : Session) : Prop where
  listed : ∀ i < s.solutionCount, ∀ p,
    p ∈ (s.solutions i).projects ↔ p < s.projectCount ∧ (s.projects p).solution = i
  once : ∀ i < s.solutionCount, (s.solutions i).projects.Nodup
  unique : ∀ i name usage p q, s.IsProject i name usage p → s.IsProject i name usage q → p = q
  named : ∀ i < s.solutionCount, ∀ name p, (s.solutions i).named.lookup name = some p ↔
    s.IsProject i name false p ∨
      s.IsProject i name true p ∧ ∀ q, ¬ s.IsProject i name false q
  paired : ∀ i < s.solutionCount, ∀ name p q, s.IsProject i name false p →
    s.IsProject i name true q → (s.projects p).usageProj = some q

/-- What holds of a session between two calls: the projects are linked, and the
current configuration is the last block of the current container. -/
structure Consistent (s : Session) : Prop extends Linked s where
  current : ∀ c, s.currentContainer = some c →
    ∃ b, s.currentConfiguration = some b ∧ (s.blocksOf c).getLast? = some b

/-- The references between the objects lead to objects that have been made, a container
does not hold a block twice, and all blocks are as `configuration` makes them. -/
structure Closed (s : Session) : Prop where
  list : ∀ name i, s.list.lookup name = some i → i < s.solutionCount
  owner : ∀ p < s.projectCount, (s.projects p).solution < s.solutionCount
  blocks : ∀ c, ∀ b ∈ s.blocksOf c, b < s.blockCount
  nodup : ∀ c, (s.blocksOf c).Nodup
  made : ∀ b < s.blockCount, ∃ words, s.blocks b = newBlock words

structure Invariant (s : Session) : Prop extends Consistent s, Closed s where
  container : ∀ c, s.currentContainer = some c → s.Made c

theorem invariant_empty : empty.Invariant where
  listed := by simp [empty]
  once := by simp [empty]
  unique := by simp [empty, IsProject]
  named := by simp [empty]
  paired := by simp [empty]
  current := by simp [empty]
  container := by simp [empty]
  list := by simp [empty]
  owner := by simp [empty]
  blocks := by
    intro c b hb
    cases c <;> simp [empty, blocksOf] at hb
  nodup := by
    intro c
    cases c <;> simp [empty, blocksOf]
  made := by simp [empty]

section AddBlock

variable {s : Session} (c : ContainerRef) (blk : BlockObj)

theorem addBlock_project (p : ℕ) :
    ((s.addBlock c blk).projects p).name = (s.projects p).name ∧
      ((s.addBlock c blk).projects p).solution = (s.projects p).solution ∧
      ((s.addBlock c blk).projects p).usage = (s.projects p).usage ∧
      ((s.addBlock c blk).projects p).usageProj = (s.projects p).usageProj := by
  cases c with
  | solution i => simp [addBlock]
  | project q =>
      by_cases h : p = q
      · subst h
        simp [addBlock]
      · simp [addBlock, h]

theorem addBlock_solution (i : ℕ) :
    ((s.addBlock c blk).solutions i).projects = (s.solutions i).projects ∧
      ((s.addBlock c blk).solutions i).named = (s.solutions i).named := by
  cases c with
  | solution j =>
      by_cases h : i = j
      · subst h
        simp [addBlock]
      · simp [addBlock, h]
  | project q => simp [addBlock]

@[simp] theorem addBlock_solutionCount :
    (s.addBlock c blk).solutionCount = s.solutionCount := by
  cases c <;> rfl

@[simp] theorem addBlock_projectCount :
    (s.addBlock c blk).projectCount = s.projectCount := by
  cases c <;> rfl

@[simp] theorem addBlock_blockCount : (s.addBlock c blk).blockCount = s.blockCount + 1 := by
  cases c <;> rfl

theorem addBlock_blocks :
    (s.addBlock c blk).blocks = Function.update s.blocks s.blockCount blk := by
  cases c <;> rfl

@[simp] theorem addBlock_list : (s.addBlock c blk).list = s.list := by
  cases c <;> rfl

@[simp] theorem addBlock_currentContainer :
    (s.addBlock c blk).currentContainer = s.currentContainer := by
  cases c <;> rfl

@[simp] theorem addBlock_currentConfiguration :
    (s.addBlock c blk).currentConfiguration = some s.blockCount := by
  cases c <;> rfl

theorem blocksOf_addBlock (d : ContainerRef) :
    (s.addBlock c blk).blocksOf d = s.blocksOf d ++ if d = c then [s.blockCount] else [] := by
  cases c with
  | solution i =>
      cases d with
      | solution j =>
          by_cases h : j = i
          · subst h
            simp [addBlock, blocksOf]
          · simp [addBlock, blocksOf, h]
      | project q => simp [addBlock, blocksOf]
  | project p =>
      cases d with
      | solution j => simp [addBlock, blocksOf]
      | project q =>
          by_cases h : q = p
          · subst h
            simp [addBlock, blocksOf]
          · simp [addBlock, blocksOf, h]

theorem isProject_addBlock {i : ℕ} {name : Str} {usage : Bool} {p : ℕ} :
    (s.addBlock c blk).IsProject i name usage p ↔ s.IsProject i name usage p := by
  obtain ⟨hname, hsolution, husage, -⟩ := addBlock_project (s := s) c blk p
  rw [IsProject, IsProject, hname, hsolution, husage, addBlock_projectCount]

theorem Linked.addBlock (h : s.Linked) : (s.addBlock c blk).Linked where
  listed := by
    intro i hi p
    rw [addBlock_solutionCount] at hi
    rw [(addBlock_solution c blk i).1, (addBlock_project c blk p).2.1, addBlock_projectCount]
    exact h.listed i hi p
  once := by
    intro i hi
    rw [addBlock_solutionCount] at hi
    rw [(addBlock_solution c blk i).1]
    exact h.once i hi
  unique := by
    intro i name usage p q hp hq
    rw [isProject_addBlock] at hp hq
    exact h.unique i name usage p q hp hq
  named := by
    intro i hi name p
    rw [addBlock_solutionCount] at hi
    simp only [(addBlock_solution c blk i).2, isProject_addBlock]
    exact h.named i hi name p
  paired := by
    intro i hi name p q hp hq
    rw [addBlock_solutionCount] at hi
    rw [isProject_addBlock] at hp hq
    rw [(addBlock_project c blk p).2.2.2]
    exact h.paired i hi name p q hp hq

theorem Closed.addBlock (h : s.Closed) (hblk : ∃ words, blk = newBlock words) :
    (s.addBlock c blk).Closed where
  list := by simpa using h.list
  owner := by
    intro p hp
    rw [addBlock_projectCount] at hp
    rw [(addBlock_project c blk p).2.1, addBlock_solutionCount]
    exact h.owner p hp
  blocks := by
    intro d b hb
    rw [blocksOf_addBlock, List.mem_append] at hb
    rw [addBlock_blockCount]
    rcases hb with hb | hb
    · exact Nat.lt_succ_of_lt (h.blocks d b hb)
    · split at hb
      · simp_all
      · simp at hb
  nodup := by
    intro d
    rw [blocksOf_addBlock]
    split
    · rw [List.nodup_append]
      refine ⟨h.nodup d, by simp, fun b hb x hx => ?_⟩
      rw [List.mem_singleton.mp hx]
      exact Nat.ne_of_lt (h.blocks d b hb)
    · simpa using h.nodup d
  made := by
    intro b hb
    rw [addBlock_blockCount] at hb
    rw [addBlock_blocks]
    by_cases hnew : b = s.blockCount
    · subst hnew
      simpa using hblk
    · rw [Function.update_of_ne hnew]
      exact h.made b (by omega)

/-- A block that is added to the current container becomes the current
configuration. -/
theorem Invariant.addBlock (hlinked : s.Linked) (hclosed : s.Closed)
    (hblk : ∃ words, blk = newBlock words) (hc : s.currentContainer = some c)
    (hmade : s.Made c) : (s.addBlock c blk).Invariant where
  toLinked := hlinked.addBlock c blk
  toClosed := hclosed.addBlock c blk hblk
  current := by
    intro d hd
    rw [addBlock_currentContainer, hc] at hd
    obtain rfl := Option.some.inj hd
    refine ⟨s.blockCount, addBlock_currentConfiguration c blk, ?_⟩
    rw [blocksOf_addBlock, if_pos rfl, List.getLast?_concat]
  container := by
    intro d hd
    rw [addBlock_currentContainer, hc] at hd
    obtain rfl := Option.some.inj hd
    cases c <;> simpa [Made] using hmade

end AddBlock

section Calls

variable {s : Session}

/-- `configuration` keeps the invariant, also when a word is not a string. -/
theorem Invariant.configuration (h : s.Invariant) (terms : Option Value) :
    (s.configuration terms).1.Invariant := by
  cases terms with
  | none => exact h
  | some terms =>
      rw [Session.configuration]
      cases hc : s.currentContainer with
      | none => exact h
      | some c => exact Invariant.addBlock c _ h.toLinked h.toClosed ⟨_, rfl⟩ hc (h.container c hc)

/-- Making another object the current container keeps the invariant. -/
theorem Invariant.activate (hlinked : s.Linked) (hclosed : s.Closed) {c : ContainerRef}
    (hmade : s.Made c) : (s.activate c).1.Invariant := by
  have hlinked' : { s with currentContainer := some c }.Linked :=
    ⟨hlinked.listed, hlinked.once, hlinked.unique, hlinked.named, hlinked.paired⟩
  have hclosed' : { s with currentContainer := some c }.Closed :=
    ⟨hclosed.list, hclosed.owner, hclosed.blocks, hclosed.nodup, hclosed.made⟩
  exact Invariant.addBlock c _ hlinked' hclosed' ⟨_, rfl⟩ rfl hmade

end Calls

section CreateProject

variable (host : Host) (s : Session) (name : Str) (sln : ℕ) (isUsage : Bool)

theorem createproject_new :
    ((s.createproject host name sln isUsage).1.projects s.projectCount).name = name ∧
      ((s.createproject host name sln isUsage).1.projects s.projectCount).solution = sln ∧
      ((s.createproject host name sln isUsage).1.projects s.projectCount).usage = isUsage ∧
      ((s.createproject host name sln isUsage).1.projects s.projectCount).blocks = [] := by
  simp only [createproject]
  cases isUsage with
  | false => simp
  | true =>
      cases (s.solutions sln).named.lookup name with
      | none => simp
      | some q =>
          by_cases h : s.projectCount = q
          · subst h
            simp
          · simp [h]

/-- The other projects keep everything, a reference to a usage project apart. -/
theorem createproject_old {p : ℕ} (hp : p ≠ s.projectCount) :
    ((s.createproject host name sln isUsage).1.projects p).name = (s.projects p).name ∧
      ((s.createproject host name sln isUsage).1.projects p).solution =
        (s.projects p).solution ∧
      ((s.createproject host name sln isUsage).1.projects p).usage = (s.projects p).usage ∧
      ((s.createproject host name sln isUsage).1.projects p).blocks = (s.projects p).blocks := by
  simp only [createproject]
  cases isUsage with
  | false => simp [hp]
  | true =>
      cases (s.solutions sln).named.lookup name with
      | none => simp [hp]
      | some q =>
          by_cases h : p = q
          · subst h
            simp [hp]
          · simp [h, hp]

theorem createproject_solution (i : ℕ) :
    ((s.createproject host name sln isUsage).1.solutions i).projects =
      (s.solutions i).projects ++ (if i = sln then [s.projectCount] else []) ∧
      ((s.createproject host name sln isUsage).1.solutions i).blocks = (s.solutions i).blocks := by
  simp only [createproject]
  by_cases h : i = sln
  · subst h
    simp
  · simp [h]

theorem createproject_named (i : ℕ) :
    ((s.createproject host name sln isUsage).1.solutions i).named =
      if i = sln ∧ ¬ (isUsage ∧ ((s.solutions sln).named.lookup name).isSome) then
        assign name s.projectCount (s.solutions i).named
      else (s.solutions i).named := by
  simp only [createproject]
  by_cases h : i = sln
  · subst h
    simp only [Function.update_self, true_and]
    rw [ite_not]
  · simp [h]

/-- A new usage project is referred to by the project that has its name, and a new
regular project refers to the project that had its name. -/
theorem createproject_usageProj_new :
    ((s.createproject host name sln false).1.projects s.projectCount).usageProj =
      (s.solutions sln).named.lookup name := by
  simp [createproject]

theorem createproject_usageProj_old {p : ℕ} (hp : p ≠ s.projectCount) :
    ((s.createproject host name sln isUsage).1.projects p).usageProj =
      if isUsage ∧ (s.solutions sln).named.lookup name = some p then some s.projectCount
      else (s.projects p).usageProj := by
  simp only [createproject]
  cases isUsage with
  | false => simp [hp]
  | true =>
      cases (s.solutions sln).named.lookup name with
      | none => simp [hp]
      | some q =>
          by_cases h : p = q
          · subst h
            simp
          · have hq : q ≠ p := fun heq => h heq.symm
            simp [h, hp, hq]

theorem isProject_createproject {i : ℕ} {name' : Str} {usage : Bool} {p : ℕ} :
    (s.createproject host name sln isUsage).1.IsProject i name' usage p ↔
      s.IsProject i name' usage p ∨
        p = s.projectCount ∧ i = sln ∧ name' = name ∧ usage = isUsage := by
  have hcount : (s.createproject host name sln isUsage).1.projectCount = s.projectCount + 1 := rfl
  rw [IsProject, IsProject, hcount]
  by_cases hp : p = s.projectCount
  · subst hp
    obtain ⟨hname, hsolution, husage, -⟩ := createproject_new host s name sln isUsage
    rw [hname, hsolution, husage]
    simp [eq_comm]
  · obtain ⟨hname, hsolution, husage, -⟩ := createproject_old host s name sln isUsage hp
    rw [hname, hsolution, husage]
    have hlt : p < s.projectCount + 1 ↔ p < s.projectCount := by omega
    simp [hp, hlt]

theorem named_createproject_self (h : s.Linked) (hsln : sln < s.solutionCount)
    (hnew : ∀ q, ¬ s.IsProject sln name isUsage q) (p : ℕ) :
    ((s.createproject host name sln isUsage).1.solutions sln).named.lookup name = some p ↔
      if isUsage ∧ ((s.solutions sln).named.lookup name).isSome then s.IsProject sln name false p
      else p = s.projectCount := by
  rw [createproject_named]
  by_cases hslot : isUsage ∧ ((s.solutions sln).named.lookup name).isSome
  · obtain ⟨rfl, -⟩ := hslot.1
    rw [if_neg (fun hcon => hcon.2 hslot), if_pos hslot, h.named sln hsln]
    exact or_iff_left fun hp => hnew p hp.1
  · rw [if_pos ⟨rfl, hslot⟩, if_neg hslot, lookup_assign_self, Option.some.injEq, eq_comm]

/-- A new project keeps the links, if there is none of its sort with its name. -/
theorem Linked.createproject (h : s.Linked) (hsln : sln < s.solutionCount)
    (hnew : ∀ q, ¬ s.IsProject sln name isUsage q) :
    (s.createproject host name sln isUsage).1.Linked where
  listed := by
    intro i hi p
    have hcount : p < (s.createproject host name sln isUsage).1.projectCount ↔
      p < s.projectCount + 1 := Iff.rfl
    rw [(createproject_solution host s name sln isUsage i).1, List.mem_append,
      h.listed i hi p, hcount]
    by_cases hp : p = s.projectCount
    · subst hp
      rw [(createproject_new host s name sln isUsage).2.1]
      simp [eq_comm]
    · rw [(createproject_old host s name sln isUsage hp).2.1]
      have hlt : p < s.projectCount + 1 ↔ p < s.projectCount := by omega
      rw [hlt]
      by_cases hi' : i = sln <;> simp [hi', hp]
  once := by
    intro i hi
    rw [(createproject_solution host s name sln isUsage i).1]
    split
    · rw [List.nodup_append]
      refine ⟨h.once i hi, by simp, fun p hp q hq => ?_⟩
      rw [List.mem_singleton.mp hq]
      exact Nat.ne_of_lt ((h.listed i hi p).mp hp).1
    · simpa using h.once i hi
  unique := by
    intro i name' usage p q hp hq
    rw [isProject_createproject] at hp hq
    rcases hp with hp | ⟨rfl, rfl, rfl, rfl⟩
    · rcases hq with hq | ⟨rfl, rfl, rfl, rfl⟩
      · exact h.unique i name' usage p q hp hq
      · exact absurd hp (hnew p)
    · rcases hq with hq | ⟨rfl, -⟩
      · exact absurd hq (hnew q)
      · rfl
  named := by
    intro i hi name' p
    by_cases hself : i = sln ∧ name' = name
    · obtain ⟨rfl, rfl⟩ := hself
      rw [named_createproject_self host s name' i isUsage h hsln hnew]
      simp only [isProject_createproject, true_and]
      cases isUsage with
      | false =>
          simp only [Bool.false_eq_true, reduceCtorEq, false_and, if_false, and_false, or_false,
            and_true]
          constructor
          · rintro rfl
            exact Or.inl (Or.inr rfl)
          · rintro ((hp | hp) | ⟨-, hnone⟩)
            · exact absurd hp (hnew p)
            · exact hp
            · exact absurd (Or.inr rfl) (hnone s.projectCount)
      | true =>
          simp only [true_and, reduceCtorEq, and_false, or_false, and_true]
          cases hslot : (s.solutions i).named.lookup name' with
          | some r =>
              -- the regular project keeps its name
              have hregular : s.IsProject i name' false r :=
                ((h.named i hsln name' r).mp hslot).resolve_right fun hr => hnew r hr.1
              simp only [Option.isSome_some, if_true]
              refine ⟨Or.inl, fun hp => hp.resolve_right fun hp => hp.2 r hregular⟩
          | none =>
              have hnone : ∀ q, ¬ s.IsProject i name' false q := by
                intro q hq
                have hlookup := (h.named i hsln name' q).mpr (Or.inl hq)
                rw [hslot] at hlookup
                cases hlookup
              simp [hnone, hnew]
    · have hlookup : ((s.createproject host name sln isUsage).1.solutions i).named.lookup name' =
          (s.solutions i).named.lookup name' := by
        rw [createproject_named]
        split
        · rename_i hcond
          exact lookup_assign_of_ne (fun heq => hself ⟨hcond.1, heq⟩) _ _
        · rfl
      have hproject : ∀ usage q,
          (s.createproject host name sln isUsage).1.IsProject i name' usage q ↔
            s.IsProject i name' usage q := by
        intro usage q
        rw [isProject_createproject]
        exact or_iff_left fun hq => hself ⟨hq.2.1, hq.2.2.1⟩
      simp only [hlookup, hproject]
      exact h.named i hi name' p
  paired := by
    intro i hi name' p q hp hq
    rw [isProject_createproject] at hp hq
    rcases hp with hp | ⟨rfl, rfl, rfl, hregular⟩
    · have hne : p ≠ s.projectCount := Nat.ne_of_lt hp.1
      rw [createproject_usageProj_old host s name sln isUsage hne]
      rcases hq with hq | ⟨rfl, rfl, rfl, rfl⟩
      · rw [if_neg]
        · exact h.paired i hi name' p q hp hq
        · rintro ⟨rfl, hlookup⟩
          have hslot := (h.named sln hsln name p).mp hlookup
          have hsame : i = sln ∧ name' = name := by
            rcases hslot with hslot | ⟨hslot, -⟩
            · exact ⟨hp.2.1.symm.trans hslot.2.1, hp.2.2.1.symm.trans hslot.2.2.1⟩
            · exact ⟨hp.2.1.symm.trans hslot.2.1, hp.2.2.1.symm.trans hslot.2.2.1⟩
          obtain ⟨rfl, rfl⟩ := hsame
          exact hnew q hq
      · rw [if_pos]
        exact ⟨rfl, (h.named i hi name' p).mpr (Or.inl hp)⟩
    · subst hregular
      rw [createproject_usageProj_new]
      rcases hq with hq | ⟨-, -, -, hcon⟩
      · exact (h.named i hi name' q).mpr (Or.inr ⟨hq, hnew⟩)
      · cases hcon

theorem Closed.createproject (h : s.Closed) (hsln : sln < s.solutionCount) :
    (s.createproject host name sln isUsage).1.Closed where
  list := h.list
  owner := by
    intro p hp
    by_cases hnew : p = s.projectCount
    · subst hnew
      rw [(createproject_new host s name sln isUsage).2.1]
      exact hsln
    · rw [(createproject_old host s name sln isUsage hnew).2.1]
      have hlt : p < s.projectCount + 1 := hp
      exact h.owner p (by omega)
  blocks := by
    intro c b hb
    cases c with
    | solution i =>
        rw [blocksOf, (createproject_solution host s name sln isUsage i).2] at hb
        exact h.blocks (.solution i) b hb
    | project p =>
        rw [blocksOf] at hb
        by_cases hnew : p = s.projectCount
        · subst hnew
          rw [(createproject_new host s name sln isUsage).2.2.2] at hb
          cases hb
        · rw [(createproject_old host s name sln isUsage hnew).2.2.2] at hb
          exact h.blocks (.project p) b hb
  nodup := by
    intro c
    cases c with
    | solution i =>
        rw [blocksOf, (createproject_solution host s name sln isUsage i).2]
        exact h.nodup (.solution i)
    | project p =>
        rw [blocksOf]
        by_cases hnew : p = s.projectCount
        · subst hnew
          rw [(createproject_new host s name sln isUsage).2.2.2]
          exact List.nodup_nil
        · rw [(createproject_old host s name sln isUsage hnew).2.2.2]
          exact h.nodup (.project p)
  made := h.made

/-- A new project with a name that is free for its sort becomes the current
container. -/
theorem Invariant.create (h : s.Invariant) (hsln : sln < s.solutionCount)
    (hnew : ∀ q, ¬ s.IsProject sln name isUsage q) :
    ((s.createproject host name sln isUsage).1.activate
      (.project (s.createproject host name sln isUsage).2)).1.Invariant :=
  Invariant.activate (h.toLinked.createproject host s name sln isUsage hsln hnew)
    (h.toClosed.createproject host s name sln isUsage hsln) (Nat.lt_succ_self s.projectCount)

end CreateProject

section Run

variable {host : Host} {s : Session}

theorem lt_of_currentSolution (h : s.Invariant) {sln : ℕ} (hsln : s.currentSolution = some sln) :
    sln < s.solutionCount := by
  rw [currentSolution] at hsln
  cases hc : s.currentContainer with
  | none =>
      rw [hc] at hsln
      cases hsln
  | some c =>
      rw [hc] at hsln
      have hmade := h.container c hc
      cases c with
      | solution i =>
          obtain rfl := Option.some.inj hsln
          exact hmade
      | project p =>
          obtain rfl := Option.some.inj hsln
          exact h.owner p hmade

theorem Invariant.project (h : s.Invariant) (name : Option Str) :
    (s.project host name).1.Invariant := by
  cases name with
  | none =>
      rw [Session.project]
      split <;> exact h
  | some name =>
      rw [Session.project]
      cases hsln : s.currentSolution with
      | none => exact h
      | some sln =>
          have hlt := lt_of_currentSolution h hsln
          cases hslot : (s.solutions sln).named.lookup name with
          | none =>
              simp only [hslot]
              refine h.create host s name sln false hlt fun q hq => ?_
              have hlookup := (h.named sln hlt name q).mpr (Or.inl hq)
              rw [hslot] at hlookup
              cases hlookup
          | some p =>
              have hp := (h.named sln hlt name p).mp hslot
              by_cases husage : (s.projects p).usage = true
              · simp only [hslot, husage, if_true]
                refine h.create host s name sln false hlt ?_
                rcases hp with hp | hp
                · rw [hp.2.2.2] at husage
                  cases husage
                · exact hp.2
              · simp only [hslot, husage]
                refine Invariant.activate h.toLinked h.toClosed ?_
                rcases hp with hp | hp
                · exact hp.1
                · exact hp.1.1

theorem Invariant.usage (h : s.Invariant) (name : Option Str) :
    (s.usage host name).1.Invariant := by
  cases name with
  | none =>
      rw [Session.usage]
      split <;> exact h
  | some name =>
      rw [Session.usage]
      cases hsln : s.currentSolution with
      | none => exact h
      | some sln =>
          have hlt := lt_of_currentSolution h hsln
          cases hslot : (s.solutions sln).named.lookup name with
          | none =>
              simp only [hslot]
              refine h.create host s name sln true hlt fun q hq => ?_
              have hregular : ∀ r, ¬ s.IsProject sln name false r := by
                intro r hr
                have hlookup := (h.named sln hlt name r).mpr (Or.inl hr)
                rw [hslot] at hlookup
                cases hlookup
              have hlookup := (h.named sln hlt name q).mpr (Or.inr ⟨hq, hregular⟩)
              rw [hslot] at hlookup
              cases hlookup
          | some p =>
              by_cases hfree : (s.projects p).usage = false ∧ (s.projects p).usageProj = none
              · simp only [hslot, if_pos hfree]
                refine h.create host s name sln true hlt fun q hq => ?_
                -- the project with the name would refer to it
                rcases (h.named sln hlt name p).mp hslot with hp | hp
                · have hpaired := h.paired sln hlt name p q hp hq
                  rw [hfree.2] at hpaired
                  cases hpaired
                · have husage := hp.1.2.2.2
                  rw [hfree.1] at husage
                  cases husage
              · simp only [hslot, if_neg hfree]
                exact h

theorem Linked.newSolution (h : s.Linked) (hclosed : s.Closed) (name : Str) :
    (s.newSolution host name).1.Linked := by
  have hold : ∀ i < s.solutionCount,
      (s.newSolution host name).1.solutions i = s.solutions i := fun i hi =>
    Function.update_of_ne (Nat.ne_of_lt hi) _ _
  have hnew : (s.newSolution host name).1.solutions s.solutionCount =
      ⟨name, host.cwd, [], [], []⟩ := Function.update_self _ _ _
  have hfree : ∀ p < s.projectCount, (s.projects p).solution ≠ s.solutionCount := fun p hp =>
    Nat.ne_of_lt (hclosed.owner p hp)
  have hcases : ∀ i < s.solutionCount + 1, i < s.solutionCount ∨ i = s.solutionCount := fun i hi =>
    Nat.lt_succ_iff_lt_or_eq.mp hi
  constructor
  case unique => exact h.unique
  case listed =>
    intro i hi p
    rcases hcases i hi with hi | rfl
    · rw [hold i hi]
      exact h.listed i hi p
    · rw [hnew]
      refine iff_of_false (by simp) fun hp => ?_
      exact hfree p hp.1 hp.2
  case once =>
    intro i hi
    rcases hcases i hi with hi | rfl
    · rw [hold i hi]
      exact h.once i hi
    · rw [hnew]
      exact List.nodup_nil
  case named =>
    intro i hi name' p
    rcases hcases i hi with hi | rfl
    · rw [hold i hi]
      exact h.named i hi name' p
    · rw [hnew]
      refine iff_of_false (by simp) ?_
      rintro (hp | ⟨hp, -⟩)
      · exact hfree p hp.1 hp.2.1
      · exact hfree p hp.1 hp.2.1
  case paired =>
    intro i hi name' p q hp hq
    rcases hcases i hi with hi | rfl
    · exact h.paired i hi name' p q hp hq
    · exact absurd hp.2.1 (hfree p hp.1)

theorem Closed.newSolution (h : s.Closed) (name : Str) :
    (s.newSolution host name).1.Closed := by
  have hblocks : ∀ c, (s.newSolution host name).1.blocksOf c = s.blocksOf c ∨
      (s.newSolution host name).1.blocksOf c = [] := by
    intro c
    cases c with
    | solution i =>
        by_cases hi : i = s.solutionCount
        · subst hi
          exact Or.inr (by simp [Session.newSolution, blocksOf])
        · exact Or.inl (by simp [Session.newSolution, blocksOf, hi])
    | project p => exact Or.inl rfl
  constructor
  case list =>
    intro name' i hi
    have hi' : (assign name s.solutionCount s.list).lookup name' = some i := hi
    by_cases hname : name' = name
    · subst hname
      rw [lookup_assign_self] at hi'
      obtain rfl := Option.some.inj hi'
      exact Nat.lt_succ_self _
    · rw [lookup_assign_of_ne hname] at hi'
      exact Nat.lt_succ_of_lt (h.list name' i hi')
  case owner => exact fun p hp => Nat.lt_succ_of_lt (h.owner p hp)
  case blocks =>
    intro c b hb
    rcases hblocks c with heq | heq
    · rw [heq] at hb
      exact h.blocks c b hb
    · rw [heq] at hb
      cases hb
  case nodup =>
    intro c
    rcases hblocks c with heq | heq
    · rw [heq]
      exact h.nodup c
    · rw [heq]
      exact List.nodup_nil
  case made => exact h.made

theorem Invariant.solution (h : s.Invariant) (name : Option Str) :
    (s.solution host name).1.Invariant := by
  cases name with
  | none => exact h
  | some name =>
      rw [Session.solution]
      cases hi : s.list.lookup name with
      | some i =>
          exact Invariant.activate h.toLinked h.toClosed (h.list name i hi)
      | none =>
          exact Invariant.activate (h.toLinked.newSolution h.toClosed name)
            (h.toClosed.newSolution name) (Nat.lt_succ_self s.solutionCount)

inductive Call
  | solution (name : Option Str)
  | project (name : Option Str)
  | usage (name : Option Str)
  | configuration (terms : Option Value)

/-- The session after a call, whether it returns or raises an error. -/
def call (host : Host) (s : Session) : Call → Session
  | .solution name => (s.solution host name).1
  | .project name => (s.project host name).1
  | .usage name => (s.usage host name).1
  | .configuration terms => (s.configuration terms).1

theorem Invariant.call (h : s.Invariant) (c : Call) : (s.call host c).Invariant := by
  cases c with
  | solution name => exact h.solution name
  | project name => exact h.project name
  | usage name => exact h.usage name
  | configuration terms => exact h.configuration terms

theorem Invariant.calls (h : s.Invariant) (calls : List Call) :
    (calls.foldl (Session.call host) s).Invariant := by
  induction calls generalizing s with
  | nil => exact h
  | cons c calls ih => exact ih (h.call c)

/-- After every sequence of calls the session is consistent. -/
theorem consistent_calls (host : Host) (calls : List Call) :
    (calls.foldl (Session.call host) empty).Consistent :=
  (invariant_empty.calls calls).toConsistent

end Run

end Session

end Puremake
