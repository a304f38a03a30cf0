import Lineage.Fault
/-!
# The order of construction

Row `i` of a table lists, in ascending order, the rows that `i` waits for. `sort` lists the rows so
that each comes after the rows it waits for, the lowest ready row first; rows on or behind a cycle
are stuck. `reaches` says whether one row waits for another, and `cycle` walks to a cycle among
stuck rows.

A section is built after its parents, and after the sections it refers to unless that would close
a cycle. Among sections that may be built next, the first one in the file is taken.
-/
/-! ## Tables of dependencies -/

namespace Lineage.Order

/-- For each row the rows it waits for, ascending. -/
abbrev Table := List (List Nat)

/-- Puts a number into an ascending list, once. -/
def insertAscending (n : Nat) : List Nat → List Nat
  | [] => [n]
  | m :: l =>
    if n < m then n :: m :: l
    else if n = m then m :: l
    else m :: insertAscending n l

theorem mem_insertAscending {n k : Nat} {l : List Nat} :
    k ∈ insertAscending n l ↔ k = n ∨ k ∈ l := by
  induction l with
  | nil => simp [insertAscending]
  | cons m l ih =>
    simp only [insertAscending]
    split
    · simp
    · split
      · next h => subst h; simp
      · simp [ih]; grind

namespace Table

/-- The rows that row `i` waits for. -/
def row (t : Table) (i : Nat) : List Nat := t.getD i []

/-- Lets row `i` wait for row `j`. -/
def add (t : Table) (i j : Nat) : Table := t.modify i (insertAscending j)

/-- Rows that are still waiting, each with those it waits for that are not placed yet. -/
abbrev Waiting := List (Nat × List Nat)

/-- The rows without row `i`, which has been placed. -/
def place (i : Nat) (w : Waiting) : Waiting :=
  (w.filter (·.1 != i)).map fun r => (r.1, r.2.filter (· != i))

/-- Places the first row that waits for nothing, up to `steps` times: the rows in the order in
which they were placed, and the rows left. -/
def sortWaiting : (steps : Nat) → Waiting → List Nat × Waiting
  | 0, w => ([], w)
  | steps + 1, w => match w.find? (·.2.isEmpty) with
    | none => ([], w)
    | some (i, _) => let (order, stuck) := sortWaiting steps (place i w); (i :: order, stuck)

/-- The rows in order, and the rows that are stuck. -/
def sort (t : Table) : List Nat × List Nat :=
  let (order, stuck) := sortWaiting t.length (t.mapIdx fun i r => (i, r))
  (order, stuck.map (·.1))

/-- Whether a row on the stack is `target` or waits for it, directly or by way of unvisited
rows. -/
def search (t : Table) (target : Nat) (unvisited : List Nat) : (stack : List Nat) → Bool
  | [] => false
  | i :: stack =>
    if i = target then true
    else if i ∈ unvisited then search t target (unvisited.erase i) (t.row i ++ stack)
    else search t target unvisited stack
termination_by stack => (unvisited.length, stack.length)
decreasing_by
  · next h =>
    have := List.length_pos_of_mem h
    rw [Prod.lex_def, List.length_erase_of_mem h]
    exact .inl (by omega)
  · exact Prod.Lex.right _ (by simp)

/-- Whether row `i` is row `j` or waits for it, directly or by way of others. -/
def reaches (t : Table) (i j : Nat) : Bool := search t j (List.range t.length) [i]

/-- Walks from a stuck row to the first stuck row that it waits for, up to `steps` times, until a
row comes again: the rows from its first to its second time. -/
def walk (t : Table) (stuck : List Nat) : (steps : Nat) → (path : List Nat) → Nat → List Nat
  | 0, path, _ => path
  | steps + 1, path, i =>
    if i ∈ path then path.dropWhile (· != i) ++ [i]
    else match (t.row i).find? (stuck.contains ·) with
      | some j => walk t stuck steps (path ++ [i]) j
      | none => path ++ [i]

/-- A cycle among the stuck rows; its last row is its first. -/
def cycle (t : Table) (stuck : List Nat) : List Nat :=
  walk t stuck (stuck.length + 1) [] (stuck.headD 0)

end Table

/-! ## Nodes -/

/-- What the order depends on of a section. -/
structure Node where
  name : Text
  /-- The declared parents. -/
  parents : List Text
  /-- The sections that its values name. -/
  references : List Text
  /-- The number of its header line. -/
  line : Nat
deriving DecidableEq, Repr

/-- The first node whose name was used before, where `seen` holds the names used so far. -/
def firstRepeated? (seen : List Text) : List Node → Option Node
  | [] => none
  | n :: ns => if seen.contains n.name then some n else firstRepeated? (n.name :: seen) ns

/-- The number of the node with a name. -/
def indexOf? (nodes : List Node) (name : Text) : Option Nat := nodes.findIdx? (·.name == name)

/-- A fault at a node. -/
def faultAt (n : Node) (c : Cause) : Fault := ((Fault.of c).atLine n.line).inSection n.name

/-- The row of a node: its parents. -/
def parentRow (nodes : List Node) (n : Node) : List Text → Except Fault (List Nat)
  | [] => .ok []
  | p :: ps => match indexOf? nodes p with
    | none => .error (faultAt n (.unknownParent n.name p))
    | some j => (parentRow nodes n ps).map (insertAscending j)

/-- The rows of some nodes among all nodes. -/
def parentRows (nodes : List Node) : List Node → Except Fault Table
  | [] => .ok []
  | n :: ns => match parentRow nodes n n.parents with
    | .error f => .error f
    | .ok row => (parentRows nodes ns).map (row :: ·)

/-- Lets row `i` wait for the section that it refers to, if there is one and that closes no
cycle. -/
def addReference (nodes : List Node) (i : Nat) (t : Table) (name : Text) : Table :=
  match indexOf? nodes name with
  | none => t
  | some j => if j = i || (t.row i).contains j || t.reaches j i then t else t.add i j

/-- Adds the references of some nodes, the first of which has the given number. -/
def addReferences (nodes : List Node) : (i : Nat) → List Node → Table → Table
  | _, [], t => t
  | i, n :: ns, t =>
    addReferences nodes (i + 1) ns (n.references.foldl (addReference nodes i) t)

/-- The fault of a cycle of parents, at its first node. -/
def cycleFault (nodes : List Node) (cycle : List Nat) : Fault :=
  let names := cycle.filterMap fun i => (nodes[i]?).map Node.name
  match cycle.head?.bind (nodes[·]?) with
  | some n => faultAt n (.cycle names)
  | none => .of (.cycle names)

/-- The order in which the nodes are to be built, by their numbers. -/
def construction (nodes : List Node) : Except Fault (List Nat) :=
  match firstRepeated? [] nodes with
  | some n => .error ((Fault.of (.duplicateSection n.name)).atLine n.line)
  | none => match parentRows nodes nodes with
    | .error f => .error f
    | .ok table =>
      if table.sort.2.isEmpty then .ok (addReferences nodes 0 nodes table).sort.1
      else .error (cycleFault nodes (table.cycle table.sort.2))

end Lineage.Order
