import ServiceMaps.Document.Basic

/-!
The flow of work through a blueprint: a directed graph with a node for every task identifier and
a link for every pair of existing tasks of which one names the other. Neighbours are walked in a
fixed order, so that every answer is a definite list: `reach` goes level by level and takes
the latest link of a node first; `isCyclic` goes depth first, the latest link first, until a link
leads back to a node that it has not left; `topologicalOrder?` is the order in which a depth-first
walk leaves the nodes, last one first, and there is none if some link runs against it.
-/
namespace ServiceMaps

/-- A task in the graph. `actor` is unknown if its lane does not exist. -/
structure TaskFlow.Node where
  id : String
  name : String
  lane : String
  actor : Option Actor
  deriving DecidableEq, Repr

/-- The nodes by their first appearance, and the distinct links by their first appearance. -/
structure TaskFlow where
  nodes : List TaskFlow.Node
  links : List (String × String)
  deriving DecidableEq, Repr

/-- Who acts in a lane; of several lanes with one identifier the last counts. -/
def Blueprint.actorOf? (d : Blueprint) (lane : String) : Option Actor :=
  (d.lanes.reverse.find? (·.id = lane)).map (·.actor)

/-- The distinct identifiers of tasks by their first appearance. -/
def Blueprint.taskIds (d : Blueprint) : List String := (d.tasks.map (·.id)).eraseDups

namespace TaskFlow

/-- The links that a task names; links to no existing task are left out. -/
def linksOf (ids : List String) (t : BlueprintTask) : List (String × String) :=
  (t.links.filter ids.contains).map fun target => (t.id, target)

/-- The graph of a blueprint. The first task with an identifier gives its node. -/
def ofBlueprint (d : Blueprint) : TaskFlow where
  nodes := d.taskIds.filterMap fun id =>
    (d.tasks.find? (·.id = id)).map fun t => ⟨t.id, t.name, t.lane, d.actorOf? t.lane⟩
  links := (d.tasks.flatMap (linksOf d.taskIds)).eraseDups

def size (g : TaskFlow) : Nat := g.nodes.length

def ids (g : TaskFlow) : List String := g.nodes.map (·.id)

def node? (g : TaskFlow) (id : String) : Option Node := g.nodes.find? (·.id = id)

/-- The targets of a node's links, the earliest link first. -/
def targets (g : TaskFlow) (id : String) : List String :=
  (g.links.filter (·.1 = id)).map (·.2)

/-- The sources of a node's links. -/
def sources (g : TaskFlow) (id : String) : List String :=
  (g.links.filter (·.2 = id)).map (·.1)

def sorted (ids : List String) : List String := ids.mergeSort fun a b => decide (a ≤ b)

/-- The tasks that a task links to, in ascending order. -/
def successors (g : TaskFlow) (id : String) : List String := sorted (g.targets id)

/-- The tasks that link to a task, in ascending order. -/
def predecessors (g : TaskFlow) (id : String) : List String := sorted (g.sources id)

/-- The nodes that one link leads to from a level and that were not seen before; the latest link
of a node comes first. -/
def nextLevel (g : TaskFlow) (seen level : List String) : List String :=
  (level.flatMap fun id => (g.targets id).reverse).eraseDups.filter (!seen.contains ·)

/-- The nodes beyond a level, level by level. -/
def beyond (g : TaskFlow) : Nat → (seen level : List String) → List String
  | 0, _, _ => []
  | fuel + 1, seen, level =>
    let next := g.nextLevel seen level
    if next.isEmpty then [] else next ++ beyond g fuel (seen ++ next) next

/-- The other tasks that links lead to from a task, the nearest first. There are fewer levels
than nodes. -/
def reach (g : TaskFlow) (id : String) : List String :=
  g.beyond g.size [id] [id]

/-- A depth-first walk: the nodes it has entered and those it has left, the latest first. -/
structure Walk where
  entered : List String
  left : List String
  deriving DecidableEq, Repr

namespace Walk

def start : Walk := ⟨[], []⟩

def enter (w : Walk) (id : String) : Walk := { w with entered := id :: w.entered }

def leave (w : Walk) (id : String) : Walk := { w with left := id :: w.left }

/-- Follows a link in a search: on from a node that was not entered before, no further than to one
that was left. A link back to a node that was entered and not left ends the search. -/
def follow (w : Walk) (next : String) (search : Walk → Option Walk) : Option Walk :=
  if !w.entered.contains next then search w
  else if w.left.contains next then some w
  else none

end Walk

/-- Enters a node that was not entered before, searches on along its links, and leaves it. -/
def search (g : TaskFlow) : Nat → String → Walk → Option Walk
  | 0, _, w => some w
  | fuel + 1, id, w =>
    if w.entered.contains id then some w
    else
      ((g.targets id).reverse.foldlM
        (fun (w : Walk) next => w.follow next (search g fuel next)) (w.enter id)).map (·.leave id)

/-- Whether a search from every node meets a link back. No path of a search is longer than the
number of nodes. -/
def isCyclic (g : TaskFlow) : Bool :=
  (g.ids.foldlM (fun w id => g.search g.size id w) Walk.start).isNone

/-- Enters a node that was not entered before, walks on along its links, and leaves it. -/
def visit (g : TaskFlow) : Nat → String → Walk → Walk
  | 0, _, w => w
  | fuel + 1, id, w =>
    if w.entered.contains id then w
    else ((g.targets id).foldl (fun w next => visit g fuel next w) (w.enter id)).leave id

/-- Walks from every node. No path of a walk is longer than the number of nodes. -/
def walk (g : TaskFlow) : Walk :=
  g.ids.foldl (fun w id => g.visit g.size id w) .start

/-- Whether every link leads to a later place of an order. -/
def isOrdered (g : TaskFlow) (order : List String) : Bool :=
  g.links.all fun link => decide (order.idxOf link.1 < order.idxOf link.2)

/-- The tasks in an order in which every link leads to a later task. -/
def topologicalOrder? (g : TaskFlow) : Option (List String) :=
  if g.isOrdered g.walk.left then some g.walk.left else none

end TaskFlow

end ServiceMaps
