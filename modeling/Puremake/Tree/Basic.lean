import Puremake.Lua.Table
import Puremake.Path.Names
import Mathlib.Logic.Function.Basic

/-!
# Source trees

The nodes of a tree live in a heap. The table `children` of a node is both the list of
its children and an index of them by name, and `tree.add` follows the index. The
recursion of `tree.add` runs along the directories of the path; `..` at the end of a
path stands for the node of its directory.
-/

namespace Puremake

namespace Tree

/-- A node, with its table `children` in two parts. `data` is what the callers of the
module keep in a node. -/
structure Node (α : Type*) where
  name : Option Str
  path : Option Str
  children : List ℕ
  index : List (Str × ℕ)
  parent : Option ℕ
  data : α

structure Forest (α : Type*) where
  node : ℕ → Node α
  count : ℕ

variable {α : Type*}

namespace Forest

def modify (f : Forest α) (i : ℕ) (g : Node α → Node α) : Forest α :=
  { f with node := Function.update f.node i (g (f.node i)) }

/-- `tree.new`: the new node has the address `f.count`. -/
def new (f : Forest α) (name : Option Str) (d : α) : Forest α where
  node := Function.update f.node f.count ⟨name, none, [], [], none, d⟩
  count := f.count + 1

def insert (f : Forest α) (parent child : ℕ) : Forest α :=
  let f := f.modify parent fun n =>
    { n with
      children := n.children ++ [child]
      index :=
        match (f.node child).name with
        | some name => assign name child n.index
        | none => n.index }
  f.modify child fun n => { n with parent := some parent }

/-- The loop of `tree.remove`, which counts on after it has removed an element. -/
def removeLoop (node : ℕ) : List ℕ → List ℕ
  | [] => []
  | c :: cs =>
    if c = node then
      match cs with
      | [] => []
      | c' :: cs => c' :: removeLoop node cs
    else c :: removeLoop node cs

/-- `tree.remove`; a node without a parent raises an error. -/
def remove (f : Forest α) (node : ℕ) : Option (Forest α) :=
  (f.node node).parent.map fun parent =>
    (f.modify parent fun n => { n with children := removeLoop node n.children }).modify node
      fun n => { n with children := [], index := [] }

/-- The node that `tree.add` makes for a path below the node of its directory;
`onaddfunc` gives it its data. -/
def insertNew (d : α) (f : Forest α) (parentnode : ℕ) (p : Str) : Forest α :=
  ((f.new (some (Path.getname p)) d).insert parentnode f.count).modify f.count fun n =>
    { n with path := some p }

/-- The last step of `tree.add`: the node for a path below the node of its
directory. -/
def extend (d : α) (s : Forest α × ℕ) (p : Str) : Forest α × ℕ :=
  let (f, parentnode) := s
  if Path.getname p = dotdot then (f, parentnode)
  else
    match (f.node parentnode).index.lookup (Path.getname p) with
    | some childnode =>
      if (f.node childnode).path = some p then (f, childnode)
      else (insertNew d f parentnode p, f.count)
    | none => (insertNew d f parentnode p, f.count)

/-- `tree.add`; there is no result for a path that starts with a slash. -/
def add (d : α) (tr : ℕ) (f : Forest α) (p : Str) : Option (Forest α × ℕ) :=
  Path.along (f, tr) (extend d) p

inductive Reachable (f : Forest α) (tr : ℕ) : ℕ → Prop
  | root : Reachable f tr tr
  | child {i c : ℕ} : Reachable f tr i → c ∈ (f.node i).children → Reachable f tr c

end Forest

end Tree

end Puremake
